import NeuralKV.Raft.Commit

/-!
# What a step does to a leader

`LeaderMove m s a n r` lists the ways a step `a` can leave node `n` as a leader with state `r`:

* its books (log, `commit_index_`, `next_index_`, `match_index_`) are untouched;
* it has just won its election;
* `Propose` has appended an entry;
* the reply to one of its `ReplicateToPeer` calls has been entered, or has made it step
  `next_index_` back.

`move_leader` is the inversion.  What holds of every leader in every run is proved by cases on
`LeaderMove`, with no look at the other lock scopes.
-/

set_option autoImplicit false

namespace NeuralKV

open Cluster

/-- A leader whose books are as they were. -/
structure SameBooks (r r' : RaftNode) : Prop where
  state : r.state = .kLeader
  term : r'.currentTerm = r.currentTerm
  log : r'.log = r.log
  commitIndex : r'.commitIndex = r.commitIndex
  matchIndex : r'.matchIndex = r.matchIndex
  nextIndex : r'.nextIndex = r.nextIndex

namespace SameBooks

variable {r : RaftNode}

theorem refl (hl : r.state = .kLeader) : SameBooks r r := ⟨hl, rfl, rfl, rfl, rfl, rfl⟩

theorem observeTerm {T : Nat} (hl : (r.observeTerm T).state = .kLeader) :
    SameBooks r (r.observeTerm T) := by
  rcases r.observeTerm_cases T with ⟨_, h⟩ | ⟨_, h⟩ <;> rw [h] at hl ⊢
  · exact refl hl
  · cases hl

theorem handleRequestVote {req : RequestVoteRequest}
    (hl : (r.handleRequestVote req).1.state = .kLeader) :
    SameBooks r (r.handleRequestVote req).1 := by
  rcases r.handleRequestVote_cases req with h | ⟨_, _, _, h⟩ <;> rw [h] at hl ⊢
  · exact observeTerm hl
  · have B := observeTerm (r := r) (T := req.term) hl
    exact ⟨B.state, B.term, B.log, B.commitIndex, B.matchIndex, B.nextIndex⟩

theorem acceptLeader {req : AppendEntriesRequest} (hl : (r.acceptLeader req).state = .kLeader) :
    SameBooks r (r.acceptLeader req) := by
  rcases r.acceptLeader_cases req with ⟨_, _, h⟩ | ⟨_, _, h⟩ | ⟨_, h⟩ <;> rw [h] at hl ⊢
  · exact ⟨hl, rfl, rfl, rfl, rfl, rfl⟩
  · cases hl
  · cases hl

theorem voteReply {term votes : Nat} {resp : RequestVoteResponse}
    (hl : (r.voteReply term votes resp).1.state = .kLeader) :
    SameBooks r (r.voteReply term votes resp).1 := by
  rcases r.voteReply_cases term votes resp with h | ⟨_, h⟩ | ⟨_, h⟩ | h <;> rw [h] at hl ⊢
  · exact refl hl
  · cases hl
  · exact refl hl
  · exact refl hl

theorem confirmReply {term acks : Nat} {peer : NodeId} {resp : AppendEntriesResponse} {now : Nat}
    (hl : (r.confirmReply term acks peer resp now).1.state = .kLeader) :
    SameBooks r (r.confirmReply term acks peer resp now).1 := by
  rcases r.confirmReply_cases term acks peer resp now with
    ⟨_, h⟩ | h | ⟨_, _, _, h⟩ | ⟨_, _, h⟩ <;> rw [h] at hl ⊢
  · cases hl
  · exact refl hl
  · exact ⟨hl, rfl, rfl, rfl, rfl, rfl⟩
  · exact refl hl

theorem readMove {config : ClusterConfig} {rd : Read} {now pos nextRpc : Nat}
    {reply : Option AppendEntriesResponse} {out : ReadOutcome}
    (hmove : ReadMove config r rd now pos nextRpc reply out) (hl : out.raft.state = .kLeader) :
    SameBooks r out.raft := by
  cases hmove with
  | lost _ _ _ => exact confirmReply hl
  | counted _ _ _ => exact confirmReply hl
  | _ => exact refl hl

end SameBooks

/-- Node `n` waits with call `rpc` of `ReplicateToPeer` for the reply to `req`, which is `resp`. -/
structure ReplyArrived (s : Cluster) (n : NodeId) (rpc : Nat) (peer : NodeId)
    (req : AppendEntriesRequest) (resp : AppendEntriesResponse) : Prop where
  waiting : rpc ∈ (s.servers n).replications
  sent : ∃ r, s.rpcs[rpc]? = some r ∧ r.callee = peer ∧ r.req = .appendEntries req
  reply : s.appendReplyTo rpc = some resp

/-- The ways a step leaves node `n` as a leader. -/
inductive LeaderMove (m : Membership) (s : Cluster) (a : Action) (n : NodeId) :
    RaftNode → Prop where
  | kept {r' : RaftNode} (hsame : SameBooks (s.servers n).raft r') : LeaderMove m s a n r'
  | elected {req : RequestVoteRequest} {votes : Nat}
      (he : (s.servers n).election = some ⟨req, votes, [], none⟩)
      (hst : (s.servers n).raft.state = .kCandidate)
      (hterm : (s.servers n).raft.currentTerm = req.term)
      (hmaj : (m.configOf n).majority ≤ votes) :
      LeaderMove m s a n ((s.servers n).raft.becomeLeader (m.configOf n))
  | proposed {thread : Nat} {timedOut : Bool} {entry : LogEntry}
      (ha : a = .act n (.writeStep thread timedOut))
      (hl : (s.servers n).raft.state = .kLeader)
      (hentry : entry.index = (s.servers n).raft.log.wal.lastIndex + 1) :
      LeaderMove m s a n { (s.servers n).raft with log := (s.servers n).raft.log.append entry }
  | entered {rpc : Nat} {peer : NodeId} {req : AppendEntriesRequest} {resp : AppendEntriesResponse}
      (ha : a = .act n (.replicateReply rpc)) (hl : (s.servers n).raft.state = .kLeader)
      (harr : ReplyArrived s n rpc peer req resp) (hsucc : resp.success = true)
      (hterm : (s.servers n).raft.currentTerm = req.term) :
      LeaderMove m s a n
        ((s.servers n).raft.recordAck req.entries peer s.clock).advanceCommitIndex
  | backedOff {rpc : Nat} {peer : NodeId} {req : AppendEntriesRequest}
      {resp : AppendEntriesResponse}
      (ha : a = .act n (.replicateReply rpc)) (hl : (s.servers n).raft.state = .kLeader)
      (harr : ReplyArrived s n rpc peer req resp)
      (hrefuses : (s.servers n).raft.Refuses req.term resp)
      (hnext : 1 < (s.servers n).raft.nextIndex.valueAt peer) :
      LeaderMove m s a n
        { (s.servers n).raft with
          nextIndex := (s.servers n).raft.nextIndex.put peer
            ((s.servers n).raft.nextIndex.valueAt peer - 1) }

section Inversion

variable {m : Membership} {h : Hist} {s s' : Cluster} {a : Action} {n : NodeId}

theorem leader_appendEntries (S : Sim m h s) {rpc : Nat} {r : Rpc} {req : AppendEntriesRequest}
    (hr : s.rpcs[rpc]? = some r) (hreq : r.req = .appendEntries req)
    (hl : ((s.servers r.callee).raft.handleAppendEntries req).1.state = .kLeader) :
    SameBooks (s.servers r.callee).raft
      ((s.servers r.callee).raft.handleAppendEntries req).1 := by
  rcases (s.servers r.callee).raft.handleAppendEntries_cases req with
    ⟨_, h⟩ | ⟨_, h⟩ | ⟨hle, _, h⟩ <;> rw [h] at hl ⊢
  · exact SameBooks.refl hl
  · exact SameBooks.acceptLeader hl
  · exact absurd hl (S.appended_not_leader (S.delivered hr hreq rfl) hle)

theorem leader_endElection {req : RequestVoteRequest} {votes : Nat}
    (he : (s.servers n).election = some ⟨req, votes, [], none⟩)
    (hl : ((s.servers n).raft.finishElection (m.configOf n) req.term votes).1.state = .kLeader) :
    LeaderMove m s a n ((s.servers n).raft.finishElection (m.configOf n) req.term votes).1 := by
  unfold RaftNode.finishElection at hl ⊢
  split at hl
  · rename_i hwon
    rw [if_pos hwon]
    exact .elected he hwon.1 hwon.2.1 hwon.2.2
  · rename_i hlost
    rw [if_neg hlost]
    exact .kept (SameBooks.refl hl)

theorem leader_replicateReply {rpc : Nat} {peer : NodeId} {req : AppendEntriesRequest}
    {resp : AppendEntriesResponse} (harr : ReplyArrived s n rpc peer req resp)
    (hl : ((s.servers n).raft.replicateReply req.term req.entries peer resp s.clock).state =
      .kLeader) :
    LeaderMove m s (.act n (.replicateReply rpc)) n
      ((s.servers n).raft.replicateReply req.term req.entries peer resp s.clock) := by
  rcases (s.servers n).raft.replicateReply_cases req.term req.entries peer resp s.clock with
    h | ⟨_, h⟩ | ⟨hst, hterm, hsucc, h⟩ | ⟨hst, hnext, hrefuses, h⟩ <;> rw [h] at hl ⊢
  · exact .kept (SameBooks.refl hl)
  · cases hl
  · exact .entered rfl hst harr hsucc hterm
  · exact .backedOff rfl hst harr hrefuses hnext

theorem leader_writeStep {thread : Nat} {timedOut : Bool} {w : Write} {raft : RaftNode}
    {next : Option Write} {events : List Event}
    (hmove : WriteMove n (s.servers n).raft w raft next events) (hl : raft.state = .kLeader) :
    LeaderMove m s (.act n (.writeStep thread timedOut)) n raft := by
  cases hmove with
  | passed _ _ => exact .kept (SameBooks.refl hl)
  | proposed _ hst hentry => exact .proposed rfl hst (by rw [hentry])
  | returned _ _ _ _ => exact .kept (SameBooks.refl hl)

/-- A leader after a step at node `k`. -/
theorem leader_update {k : NodeId} {srv : Server}
    (hk : srv.raft.state = .kLeader → LeaderMove m s a k srv.raft)
    (hl : (Function.update s.servers k srv n).raft.state = .kLeader) :
    LeaderMove m s a n (Function.update s.servers k srv n).raft :=
  forall_update
    (P := fun n srv => srv.raft.state = .kLeader → LeaderMove m s a n srv.raft)
    hk (fun _ _ hl => .kept (SameBooks.refl hl)) n hl

/-- **The inversion of a step that leaves `n` as a leader.** -/
theorem move_leader (S : Sim m h s) (mv : Move m s a s')
    (hl : (s'.servers n).raft.state = .kLeader) : LeaderMove m s a n (s'.servers n).raft := by
  have idle : ∀ {k : NodeId}, (s.servers k).raft.state = .kLeader →
      LeaderMove m s a k (s.servers k).raft := fun hk => .kept (SameBooks.refl hk)
  cases mv with
  | tick d => exact idle hl
  | requestVote _ _ _ _ =>
    exact leader_update (fun hk => .kept (SameBooks.handleRequestVote hk)) hl
  | appendEntries _ hr hreq _ =>
    exact leader_update (fun hk => .kept (leader_appendEntries S hr hreq hk)) hl
  | crash _ _ => exact leader_update idle hl
  | restart _ _ hr =>
    refine leader_update (fun hk => ?_) hl
    rw [(RaftNode.restart_spec (S.node _).contiguous hr).state] at hk
    cases hk
  | startElection _ _ _ => exact leader_update (fun hk => by cases hk) hl
  | callVoter _ _ => exact leader_update idle hl
  | voteLost _ _ => exact leader_update idle hl
  | voteReply _ _ _ => exact leader_update (fun hk => .kept (SameBooks.voteReply hk)) hl
  | endElection _ he => exact leader_update (leader_endElection he) hl
  | replicateIdle _ => exact idle hl
  | replicate _ _ _ _ => exact leader_update idle hl
  | replicateReply _ hrpc hr hreq hresp hraft =>
    subst hraft
    exact leader_update (leader_replicateReply ⟨hrpc, ⟨_, hr, rfl, hreq⟩, hresp⟩) hl
  | write _ _ => exact leader_update idle hl
  | writeStep _ _ hmove => exact leader_update (leader_writeStep hmove) hl
  | read _ _ => exact leader_update idle hl
  | readStep _ _ hmove => exact leader_update (fun hk => .kept (SameBooks.readMove hmove hk)) hl
  | readLost _ _ _ => exact leader_update idle hl

end Inversion

end NeuralKV
