import NeuralKV.Net.Connection
import NeuralKV.Raft.NodeSpec
import NeuralKV.Raft.RpcCodec

/-!
# Raft RPCs over the wire

Model of `RequestHandler::HandleCluster` of `src/server/handler.cpp` and of
`ClusterTransport::SendRpc` of `src/cluster/transport.cpp`, for a peer that is reached and answers.
In `NeuralKV.Raft.Cluster` a request and its reply are values; here they are the bytes of frames.

* `sendRpc_eq` — **an RPC is a call of the peer's handler** if both frames can be encoded.
* `requestVoteRpc_eq`, `appendEntriesRpc_eq` — so it is for the two Raft RPCs, as long as the
  request fits into a frame.
* `appendEntriesRpc_oversized` — a request that does not is never seen by the peer, and looks to the
  caller like a peer that is down.
-/

set_option autoImplicit false

namespace NeuralKV

open Framing Incremental
open Protocol (ClusterRequest ClusterResponse Message tryParseFrame)

/-! ## The handler -/

/-- `RequestHandler::HandleCluster` in a process that has memory for the entries a request announces;
`raft` is `none` when `raft_ == nullptr`. -/
def handleCluster (raft : Option RaftNode) (req : ClusterRequest) :
    Option RaftNode × ClusterResponse :=
  let badRequest : ClusterResponse := { requestId := req.requestId, status := .kBadRequest }
  match req.opcode, raft with
  | .kPing, raft =>
    -- "pong"
    (raft, { requestId := req.requestId, status := .kOk, body := [112, 111, 110, 103] })
  | .kRequestVote, some node =>
    match decodeRequestVoteRequest req.body with
    | .error _ => (some node, badRequest)
    | .ok rv =>
      (some (node.handleRequestVote rv).1,
        { requestId := req.requestId
          status := .kOk
          body := encodeRequestVoteResponse (node.handleRequestVote rv).2 })
  | .kAppendEntries, some node =>
    match decodeAppendEntriesRequest (fun _ => true) req.body with
    | .error _ => (some node, badRequest)
    | .ok ae =>
      (some (node.handleAppendEntries ae).1,
        { requestId := req.requestId
          status := .kOk
          body := encodeAppendEntriesResponse (node.handleAppendEntries ae).2 })
  | .kRequestVote, none => (none, badRequest)
  | .kAppendEntries, none => (none, badRequest)
  | .kPong, raft => (raft, badRequest)

theorem handleCluster_requestVote (node : RaftNode) (requestId : UInt64) {body : Bytes}
    {req : RequestVoteRequest} (hdecode : decodeRequestVoteRequest body = .ok req) :
    handleCluster (some node) { requestId := requestId, opcode := .kRequestVote, body := body } =
      (some (node.handleRequestVote req).1,
        { requestId := requestId
          status := .kOk
          body := encodeRequestVoteResponse (node.handleRequestVote req).2 }) := by
  simp only [handleCluster, hdecode]

theorem handleCluster_appendEntries (node : RaftNode) (requestId : UInt64) {body : Bytes}
    {req : AppendEntriesRequest}
    (hdecode : decodeAppendEntriesRequest (fun _ => true) body = .ok req) :
    handleCluster (some node) { requestId := requestId, opcode := .kAppendEntries, body := body } =
      (some (node.handleAppendEntries req).1,
        { requestId := requestId
          status := .kOk
          body := encodeAppendEntriesResponse (node.handleAppendEntries req).2 }) := by
  simp only [handleCluster, hdecode]

/-- `RequestHandler` in front of a `RaftNode`; what it does with client requests is left open. -/
def raftHandler (handle : Option RaftNode → Protocol.ClientRequest →
    Option RaftNode × Protocol.ClientResponse) : RequestHandler (Option RaftNode) where
  handle := handle
  handleCluster := handleCluster

/-! ## The transport -/

variable {σ : Type}

/-- `ClusterTransport::SendRpc`: the peer's session gets the frame, and what it writes is parsed. -/
def sendRpc (h : RequestHandler σ) (peer : σ) (req : ClusterRequest) :
    Except Status ClusterResponse × σ :=
  match Protocol.encodeClusterRequest req with
  | .error status => (.error status, peer)
  | .ok encoded =>
    let served := frameLoop h accepting peer encoded
    match (tryParseFrame (written served.out)).1 with
    | .kComplete (.clusterResponse resp) => (.ok resp, served.state)
    | .kComplete _ => (.error ⟨.kIOError, "peer sent a non-cluster-response frame"⟩, served.state)
    | .kError => (.error ⟨.kIOError, "malformed cluster response from peer"⟩, served.state)
    | .kNeedMore =>
      (.error ⟨.kIOError, "connection closed while awaiting cluster response"⟩, served.state)

/-- A session that gets one request frame. -/
theorem frameLoop_clusterRequest {h : RequestHandler σ} {s : σ} {req : ClusterRequest}
    {encoded reply : Bytes} (hreq : Protocol.encodeClusterRequest req = .ok encoded)
    (hreply : Protocol.encodeClusterResponse (h.handleCluster s req).2 = .ok reply) :
    frameLoop h accepting s encoded =
      ⟨(h.handleCluster s req).1, [.handled (.clusterRequest req), .wrote reply], some []⟩ := by
  have hparse := Protocol.tryParseFrame_encode (m := .clusterRequest req) hreq []
  rw [List.append_nil] at hparse
  have hreact : frameReaction h accepting s (.clusterRequest req) =
      ⟨(h.handleCluster s req).1, [.handled (.clusterRequest req), .wrote reply], true⟩ := by
    simp only [frameReaction, RequestHandler.answer, hreply, accepting]
  unfold frameLoop
  rw [drainAll_done parseFrame_stable (parseFrame_done.mpr hparse), hreact]
  simp only [if_true]
  rw [drainAll_more rfl]
  rfl

/-- **An RPC is a call of the peer's handler.** -/
theorem sendRpc_eq {h : RequestHandler σ} {peer : σ} {req : ClusterRequest} {encoded reply : Bytes}
    (hreq : Protocol.encodeClusterRequest req = .ok encoded)
    (hreply : Protocol.encodeClusterResponse (h.handleCluster peer req).2 = .ok reply) :
    sendRpc h peer req = (.ok (h.handleCluster peer req).2, (h.handleCluster peer req).1) := by
  have hparse := Protocol.tryParseFrame_encode
    (m := .clusterResponse (h.handleCluster peer req).2) hreply []
  unfold sendRpc
  simp only [hreq, frameLoop_clusterRequest hreq hreply, written, hparse]

/-! ## The Raft RPCs -/

/-- The RPC of `StartElection`; `none` when the loop goes on without a vote. -/
def requestVoteRpc (h : RequestHandler σ) (peer : σ) (req : RequestVoteRequest) :
    Option RequestVoteResponse × σ :=
  let result := sendRpc h peer
    { requestId := 0, opcode := .kRequestVote, body := encodeRequestVoteRequest req }
  match result.1 with
  | .error _ => (none, result.2)
  | .ok resp => ((decodeRequestVoteResponse resp.body).toOption, result.2)

/-- The RPC of `ReplicateToPeer` and `ConfirmLeadershipQuorum`. -/
def appendEntriesRpc (h : RequestHandler σ) (peer : σ) (req : AppendEntriesRequest) :
    Option AppendEntriesResponse × σ :=
  let result := sendRpc h peer (replicationRequest req)
  match result.1 with
  | .error _ => (none, result.2)
  | .ok resp => ((decodeAppendEntriesResponse resp.body).toOption, result.2)

theorem encodeReply_length (term : Nat) (flag : Bool) : (encodeReply term flag).length = 9 := by
  simp [encodeReply]

/-- A reply always fits into a frame. -/
theorem encodeClusterResponse_reply (requestId : UInt64) (term : Nat) (flag : Bool) :
    ∃ reply, Protocol.encodeClusterResponse
      { requestId := requestId, status := .kOk, body := encodeReply term flag } = .ok reply := by
  refine ⟨_, Protocol.encodeFrame_ok.mpr ⟨?_, rfl⟩⟩
  simp only [encodeReply_length, Protocol.kMaxPayloadSize]
  omega

variable {handle : Option RaftNode → Protocol.ClientRequest →
    Option RaftNode × Protocol.ClientResponse} {node : RaftNode}

/-- A request that the peer's node answers. -/
theorem sendRpc_served {req : ClusterRequest} {node' : Option RaftNode} {encoded : Bytes}
    {term : Nat} {flag : Bool} (hencoded : Protocol.encodeClusterRequest req = .ok encoded)
    (hserved : handleCluster (some node) req =
      (node', { requestId := req.requestId, status := .kOk, body := encodeReply term flag })) :
    sendRpc (raftHandler handle) (some node) req =
      (.ok { requestId := req.requestId, status := .kOk, body := encodeReply term flag },
        node') := by
  obtain ⟨reply, hreply⟩ := encodeClusterResponse_reply req.requestId term flag
  have hserved : (raftHandler handle).handleCluster (some node) req = _ := hserved
  rw [sendRpc_eq hencoded (by rw [hserved]; exact hreply), hserved]

theorem RaftNode.handleRequestVote_term_lt {req : RequestVoteRequest} {bound : Nat}
    (hreq : req.term < bound) (hnode : node.currentTerm < bound) :
    (node.handleRequestVote req).2.term < bound := by
  have hobserve : (node.observeTerm req.term).currentTerm < bound := by
    rcases node.observeTerm_cases req.term with ⟨_, heq⟩ | ⟨_, heq⟩
    · rw [heq]
      exact hnode
    · rw [heq]
      exact hreq
  rcases node.handleRequestVote_cases req with heq | ⟨_, _, _, heq⟩
  · rw [heq]
    exact hobserve
  · rw [heq]
    exact hobserve

theorem RaftNode.handleAppendEntries_term_lt {req : AppendEntriesRequest} {bound : Nat}
    (hreq : req.term < bound) (hnode : node.currentTerm < bound) :
    (node.handleAppendEntries req).2.term < bound := by
  rcases node.handleAppendEntries_cases req with ⟨_, heq⟩ | ⟨hle, heq⟩ | ⟨hle, _, heq⟩
  · rw [heq]
    exact hnode
  · rw [heq]
    exact acceptLeader_term hle ▸ hreq
  · rw [heq]
    exact acceptLeader_term hle ▸ hreq

/-- **A RequestVote RPC is a call of the peer's `HandleRequestVote`.** -/
theorem requestVoteRpc_eq {req : RequestVoteRequest} (hreq : req.Fits)
    (hnode : node.currentTerm < 256 ^ 8) :
    requestVoteRpc (raftHandler handle) (some node) req =
      (some (node.handleRequestVote req).2, some (node.handleRequestVote req).1) := by
  have hterm := node.handleRequestVote_term_lt hreq.1 hnode
  have hserved := handleCluster_requestVote node 0 (decodeRequestVoteRequest_iff.mpr ⟨hreq, rfl⟩)
  obtain ⟨encoded, hencoded⟩ : ∃ encoded, Protocol.encodeClusterRequest
      { requestId := 0, opcode := .kRequestVote, body := encodeRequestVoteRequest req } =
        .ok encoded := by
    refine ⟨_, Protocol.encodeFrame_ok.mpr ⟨?_, rfl⟩⟩
    simp [encodeRequestVoteRequest, Protocol.kMaxPayloadSize]
  unfold requestVoteRpc
  simp only [sendRpc_served hencoded hserved]
  rw [← encodeRequestVoteResponse, decodeRequestVoteResponse_encode hterm]
  rfl

/-- **An AppendEntries RPC is a call of the peer's `HandleAppendEntries`**, if its frame is not too
long. -/
theorem appendEntriesRpc_eq {req : AppendEntriesRequest} (hreq : req.Fits)
    (hsize : 13 + (encodeAppendEntriesRequest req).length ≤ Protocol.kMaxPayloadSize)
    (hnode : node.currentTerm < 256 ^ 8) :
    appendEntriesRpc (raftHandler handle) (some node) req =
      (some (node.handleAppendEntries req).2, some (node.handleAppendEntries req).1) := by
  have hterm := node.handleAppendEntries_term_lt hreq.1.1 hnode
  have hserved :=
    handleCluster_appendEntries node 0 (decodeAppendEntriesRequest_iff.mpr ⟨rfl, hreq, rfl⟩)
  rw [encodeAppendEntriesRequest_length] at hsize
  obtain ⟨encoded, hencoded⟩ := replicationRequest_ok.mpr (by omega :
    13 + 40 + (encodeAll encodeLogEntry req.entries).length ≤ Protocol.kMaxPayloadSize)
  unfold appendEntriesRpc
  simp only [sendRpc_served hencoded hserved]
  rw [← encodeAppendEntriesResponse, decodeAppendEntriesResponse_encode hterm]
  rfl

/-- A frame that is too long is never sent: the peer is as it was, and the caller has no reply. -/
theorem appendEntriesRpc_oversized {req : AppendEntriesRequest}
    (hsize : Protocol.kMaxPayloadSize < 13 + (encodeAppendEntriesRequest req).length)
    {h : RequestHandler σ} (peer : σ) : appendEntriesRpc h peer req = (none, peer) := by
  have hfails : ∃ status,
      Protocol.encodeClusterRequest (replicationRequest req) = .error status := by
    cases hencode : Protocol.encodeClusterRequest (replicationRequest req) with
    | error status => exact ⟨status, rfl⟩
    | ok frame =>
      have hfits := replicationRequest_ok.mp ⟨frame, hencode⟩
      rw [encodeAppendEntriesRequest_length] at hsize
      omega
  obtain ⟨status, hfails⟩ := hfails
  simp only [appendEntriesRpc, sendRpc, hfails]

end NeuralKV
