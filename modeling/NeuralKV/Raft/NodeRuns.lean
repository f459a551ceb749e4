import NeuralKV.Raft.Commit
import NeuralKV.Raft.FollowerAppend

/-!
# One node on its own

A node is run with arbitrary requests and replies, in any order, with restarts in between.  Every
node of a cluster run is such a run (`run_nodeRun`), so what holds here holds whatever the other
nodes do.

* `AppliedPrefix` — `last_applied_index <= commit_index_ <= LastIndex()`, so that `lag_entries`
  does not wrap, and the store is the replay of the first `last_applied_index` entries of the log.
* `applied_prefix_run` — it holds in every run in which a restart finds an empty WAL and no
  accepted request overwrites a committed entry.
* `recovery_applies_uncommitted` — in general it does not: recovery replays the whole WAL,
  committed or not, while `commit_index_` restarts at `0`.
-/

set_option autoImplicit false

namespace NeuralKV

open Cluster
open Runs (anyStep exists_run)

/-! ## Runs of a node -/

/-- The lock scopes that change a node, with all they get from outside. -/
inductive NodeAction where
  | startElection
  | voteReply (term votes : Nat) (resp : RequestVoteResponse)
  | finishElection (term votes : Nat)
  | requestVote (req : RequestVoteRequest)
  | appendEntries (req : AppendEntriesRequest)
  | replicateReply (term : Nat) (entries : List LogEntry) (peer : NodeId)
      (resp : AppendEntriesResponse) (now : Nat)
  | confirmReply (term acks : Nat) (peer : NodeId) (resp : AppendEntriesResponse) (now : Nat)
  | propose (entry : LogEntry)
  | restart

namespace RaftNode

/-- The node after one scope; `none` when a restart finds an unreadable WAL. -/
def next (config : ClusterConfig) (node : RaftNode) : NodeAction → Option RaftNode
  | .startElection => some (node.startElection config).1
  | .voteReply term votes resp => some (node.voteReply term votes resp).1
  | .finishElection term votes => some (node.finishElection config term votes).1
  | .requestVote req => some (node.handleRequestVote req).1
  | .appendEntries req => some (node.handleAppendEntries req).1
  | .replicateReply term entries peer resp now =>
    some (node.replicateReply term entries peer resp now)
  | .confirmReply term acks peer resp now => some (node.confirmReply term acks peer resp now).1
  | .propose entry =>
    match node.proposeAppend entry with
    | .error _ => some node
    | .ok (node', _) => some node'
  | .restart => node.restart

end RaftNode

/-- The states of a node started on an empty data directory, by scopes that all satisfy `ok`. -/
abbrev NodeRun (config : ClusterConfig) (hash : Bytes → Nat)
    (ok : RaftNode → NodeAction → Prop) : RaftNode → Prop :=
  Runs.Run (RaftNode.next config) (RaftNode.fresh hash) ok

/-! ## Nodes of a cluster -/

section FromCluster

variable {m : Membership} {hash : Bytes → Nat} {s s' : Cluster} {a : Action}

/-- Every step of the cluster is at most one scope at one node. -/
theorem move_next (mv : Move m s a s') (k : NodeId) :
    (s'.servers k).raft = (s.servers k).raft ∨
      ∃ b, (s.servers k).raft.next (m.configOf k) b = some (s'.servers k).raft := by
  -- an update of the server `n`: at `n` itself a scope or nothing, elsewhere nothing
  have change : ∀ {n : NodeId} {srv : Server},
      (srv.raft = (s.servers n).raft ∨
        ∃ b, (s.servers n).raft.next (m.configOf n) b = some srv.raft) →
      (Function.update s.servers n srv k).raft = (s.servers k).raft ∨
        ∃ b, (s.servers k).raft.next (m.configOf k) b =
          some (Function.update s.servers n srv k).raft :=
    fun hn => forall_update
      (P := fun k srv => srv.raft = (s.servers k).raft ∨
        ∃ b, (s.servers k).raft.next (m.configOf k) b = some srv.raft)
      hn (fun _ _ => Or.inl rfl) k
  cases mv with
  | tick d => exact Or.inl rfl
  | @requestVote _ _ req _ _ _ _ => exact change (Or.inr ⟨.requestVote req, rfl⟩)
  | @appendEntries _ _ req _ _ _ _ => exact change (Or.inr ⟨.appendEntries req, rfl⟩)
  | crash _ _ => exact change (Or.inl rfl)
  | restart _ _ hr => exact change (Or.inr ⟨.restart, hr⟩)
  | startElection _ _ _ => exact change (Or.inr ⟨.startElection, rfl⟩)
  | callVoter _ _ => exact change (Or.inl rfl)
  | voteLost _ _ => exact change (Or.inl rfl)
  | @voteReply _ req votes _ _ resp _ _ _ =>
    exact change (Or.inr ⟨.voteReply req.term votes resp, rfl⟩)
  | @endElection _ req votes _ _ => exact change (Or.inr ⟨.finishElection req.term votes, rfl⟩)
  | replicateIdle _ => exact Or.inl rfl
  | replicate _ _ _ _ => exact change (Or.inl rfl)
  | @replicateReply _ _ r req resp _ _ _ _ _ _ hraft =>
    exact change (Or.inr
      ⟨.replicateReply req.term req.entries r.callee resp s.clock, by rw [hraft]; rfl⟩)
  | write _ _ => exact change (Or.inl rfl)
  | @writeStep n _ _ w _ _ _ _ _ hmove =>
    cases hmove with
    | passed _ _ => exact change (Or.inl rfl)
    | proposed _ hlead hentry =>
      refine change (Or.inr ⟨.propose w.entry, ?_⟩)
      simp only [RaftNode.next, RaftNode.proposeAppend, hlead, hentry]
      rfl
    | returned _ _ _ _ => exact change (Or.inl rfl)
  | read _ _ => exact change (Or.inl rfl)
  | readStep _ _ hmove =>
    cases hmove with
    | @lost term _ acks _ peer _ resp _ _ _ =>
      exact change (Or.inr ⟨.confirmReply term acks peer resp s.clock, rfl⟩)
    | @counted term _ acks _ _ peer _ resp _ _ _ =>
      exact change (Or.inr ⟨.confirmReply term acks peer resp s.clock, rfl⟩)
    | _ => exact change (Or.inl rfl)
  | readLost _ _ _ => exact change (Or.inl rfl)

/-- **Every node of a cluster run is a node run.** -/
theorem run_nodeRun (hr : Run m hash anyStep s) (k : NodeId) :
    NodeRun (m.configOf k) hash anyStep (s.servers k).raft := by
  induction hr with
  | init => exact .init
  | step _ _ hs ih =>
    rcases move_next (step_move hs) k with h | ⟨b, h⟩
    · rw [h]
      exact ih
    · exact ih.step trivial h

end FromCluster

/-! ## The applied prefix -/

/-- What is applied is a committed prefix of the node's own log. -/
structure AppliedPrefix (hash : Bytes → Nat) (node : RaftNode) : Prop where
  applied_le : node.storage.lastAppliedIndex ≤ node.commitIndex
  commit_le : node.commitIndex ≤ node.log.lastIndex
  lag : node.lagEntries = UInt64.ofNat (node.commitIndex - node.storage.lastAppliedIndex)
  contents : node.storage.kv =
    replay (ShardedKV.empty hash) (node.log.entries.take node.storage.lastAppliedIndex)

/-- A restart finds an empty WAL, and an accepted request agrees in term with the node's log at
every index up to `commit_index_`. -/
def keepsCommitted (node : RaftNode) : NodeAction → Prop
  | .appendEntries req =>
    node.currentTerm ≤ req.term → node.prevMismatch req = false →
      ∀ i < req.entries.length, req.prevLogIndex + i < node.commitIndex →
        (node.log.get (req.prevLogIndex + i + 1)).map (·.term) = req.entries[i]?.map (·.term)
  | .restart => node.log.wal.records = []
  | _ => True

instance (node : RaftNode) (a : NodeAction) : Decidable (keepsCommitted node a) := by
  unfold keepsCommitted
  split <;> infer_instance

/-- The loop of `HandleAppendEntries`, whatever the request says about indices, keeps the log
contiguous, and keeps the first `c` entries if it agrees with them in term. -/
theorem appendLoop_keeps {c p : Nat} (es : List LogEntry) {log : Log} (hc : log.Contiguous)
    (hp : p ≤ log.entries.length) (hcl : c ≤ log.entries.length)
    (hagree : ∀ i < es.length, p + i < c →
      (log.get (p + i + 1)).map (·.term) = es[i]?.map (·.term)) :
    (RaftNode.appendLoop log p es).Contiguous ∧
      (RaftNode.appendLoop log p es).entries.take c = log.entries.take c ∧
      c ≤ (RaftNode.appendLoop log p es).entries.length := by
  obtain ⟨hentries, hcont⟩ := RaftNode.appendLoop_entries hc hp es
  refine ⟨hcont, ?_⟩
  rw [hentries]
  refine Consensus.overwrite_keeps hp hcl fun j e a he ha hlt => ?_
  rw [getElem?_renumber] at he
  obtain ⟨x, hx, rfl⟩ := Option.map_eq_some_iff.mp he
  have hterm := hagree j (List.getElem?_eq_some_iff.mp hx).1 hlt
  rw [hc.get_eq (by omega), Nat.add_sub_cancel, ha, hx] at hterm
  exact Option.some.inj hterm

/-- The invariant of `applied_prefix_run`. -/
structure AppliedOk (hash : Bytes → Nat) (node : RaftNode) : Prop where
  contiguous : node.log.Contiguous
  applied_le : node.storage.lastAppliedIndex ≤ node.commitIndex
  commit_le : node.commitIndex ≤ node.log.entries.length
  contents : node.storage.kv =
    replay (ShardedKV.empty hash) (node.log.entries.take node.storage.lastAppliedIndex)

namespace AppliedOk

variable {config : ClusterConfig} {hash : Bytes → Nat} {node node' : RaftNode}

theorem toAppliedPrefix (A : AppliedOk hash node) : AppliedPrefix hash node where
  applied_le := A.applied_le
  commit_le := by rw [A.contiguous.lastIndex_eq]; exact A.commit_le
  lag := (UInt64.ofNat_sub A.applied_le).symm
  contents := A.contents

/-- Only the log, the store and the commit index matter. -/
theorem congr (A : AppliedOk hash node) (hlog : node'.log = node.log)
    (hcommit : node'.commitIndex = node.commitIndex) (hst : node'.storage = node.storage) :
    AppliedOk hash node' := by
  refine ⟨?_, ?_, ?_, ?_⟩
  · rw [hlog]; exact A.contiguous
  · rw [hst, hcommit]; exact A.applied_le
  · rw [hcommit, hlog]; exact A.commit_le
  · rw [hst, hlog]; exact A.contents

theorem follows (A : AppliedOk hash node) (hf : Follows node node') : AppliedOk hash node' :=
  A.congr hf.log hf.commitIndex hf.storage

/-- A log that keeps the committed entries. -/
theorem setLog (A : AppliedOk hash node) {log : Log} (hc : log.Contiguous)
    (hkeep : log.entries.take node.commitIndex = node.log.entries.take node.commitIndex)
    (hlen : node.commitIndex ≤ log.entries.length) :
    AppliedOk hash { node with log := log } := by
  refine ⟨hc, A.applied_le, hlen, ?_⟩
  show node.storage.kv = replay _ (log.entries.take node.storage.lastAppliedIndex)
  have htake := congrArg (List.take node.storage.lastAppliedIndex) hkeep
  rw [List.take_take, List.take_take, Nat.min_eq_left A.applied_le] at htake
  rw [htake]
  exact A.contents

/-- **Moving the commit index inside the log and applying keeps the applied prefix.** -/
theorem commit (A : AppliedOk hash node) {c : Nat} (hlt : node.commitIndex ≤ c)
    (hc : c ≤ node.log.entries.length) :
    AppliedOk hash (RaftNode.applyCommittedEntries { node with commitIndex := c }) := by
  have hst := (Follows.refl node).committed_storage A.contiguous hc
  have hle := Nat.le_trans A.applied_le hlt
  have hmax : max node.storage.lastAppliedIndex c = c := Nat.max_eq_right hle
  refine ⟨A.contiguous, ?_, hc, ?_⟩
  · rw [hst]
    exact Nat.le_of_eq hmax
  · rw [hst]
    show replay node.storage.kv _ = replay _ (node.log.entries.take (max _ c))
    rw [hmax, A.contents, ← replay_append, ← List.take_add, Nat.add_sub_cancel' hle]

theorem followCommit (A : AppliedOk hash node) (leaderCommit : Nat) :
    AppliedOk hash (node.followCommit leaderCommit) := by
  rcases node.followCommit_cases leaderCommit with ⟨_, h⟩ | ⟨hlt, h⟩ <;> rw [h]
  · exact A
  · have hlast := A.contiguous.lastIndex_eq
    have hle := A.commit_le
    exact A.commit (by omega) (by omega)

theorem handleAppendEntries (A : AppliedOk hash node) (req : AppendEntriesRequest)
    (hok : keepsCommitted node (.appendEntries req)) :
    AppliedOk hash (node.handleAppendEntries req).1 := by
  have F := Follows.acceptLeader node req
  rcases node.handleAppendEntries_cases req with ⟨_, h⟩ | ⟨_, h⟩ | ⟨hterm, hprev, h⟩ <;> rw [h]
  · exact A
  · exact A.follows F
  · have hprev' : node.prevMismatch req = false :=
      (node.prevMismatch_acceptLeader req).symm.trans hprev
    have hp := (RaftNode.hasPrev_of_accepted A.contiguous hprev).le
    obtain ⟨h₁, h₂, h₃⟩ := appendLoop_keeps req.entries A.contiguous hp A.commit_le
      (hok hterm hprev')
    have A' : AppliedOk hash
        { node.acceptLeader req with
          log := RaftNode.appendLoop node.log req.prevLogIndex req.entries } :=
      (A.setLog h₁ h₂ h₃).congr rfl F.commitIndex F.storage
    exact A'.followCommit req.leaderCommit

theorem advanceCommitIndex (A : AppliedOk hash node) : AppliedOk hash node.advanceCommitIndex := by
  rcases node.advanceCommitIndex_cases with h | ⟨c, entry, hlt, hget, _, _, h⟩ <;> rw [h]
  · exact A
  · exact A.commit (Nat.le_of_lt hlt) (A.contiguous.le_of_get hget)

theorem replicateReply (A : AppliedOk hash node) (term : Nat) (entries : List LogEntry)
    (peer : NodeId) (resp : AppendEntriesResponse) (now : Nat) :
    AppliedOk hash (node.replicateReply term entries peer resp now) := by
  rcases node.replicateReply_cases term entries peer resp now with
    h | ⟨hT, h⟩ | ⟨_, _, _, h⟩ | ⟨_, _, _, h⟩ <;> rw [h]
  · exact A
  · exact A.follows (Follows.becomeFollower hT)
  · exact (A.follows (Follows.recordAck node entries peer now)).advanceCommitIndex
  · exact A.congr rfl rfl rfl

theorem append (A : AppliedOk hash node) (entry : LogEntry) :
    AppliedOk hash { node with log := node.log.append entry } := by
  have happ := Log.append_entries _ A.contiguous entry
  refine A.setLog (Log.append_contiguous A.contiguous entry) ?_ ?_
  · rw [happ, List.take_append_of_le_length A.commit_le]
  · rw [happ, List.length_append]
    exact Nat.le_add_right_of_le A.commit_le

/-- A restart on an empty WAL is a fresh node. -/
theorem restart (A : AppliedOk hash node) (hempty : node.log.wal.records = [])
    (hr : node.restart = some node') : AppliedOk hash node' := by
  have R := RaftNode.restart_spec A.contiguous hr
  have hnil : node.log.entries = [] := by rw [← A.contiguous.records]; exact hempty
  have hhash : node.storage.kv.hash = hash := by rw [A.contents, replay_hash]; rfl
  have hst : node'.storage = Storage.recover hash [] := by rw [R.storage, hhash, hnil]
  refine ⟨R.contiguous, ?_, ?_, ?_⟩
  · rw [hst]; exact Nat.zero_le _
  · rw [R.commitIndex]; exact Nat.zero_le _
  · rw [hst]; rfl

/-- **Every scope keeps the invariant.** -/
theorem next (A : AppliedOk hash node) {a : NodeAction} (ha : keepsCommitted node a)
    (hs : node.next config a = some node') : AppliedOk hash node' := by
  cases a with
  | startElection => cases hs; exact A.follows (Follows.startElection node config)
  | voteReply term votes resp => cases hs; exact A.follows (Follows.voteReply node term votes resp)
  | finishElection term votes =>
    cases hs
    unfold RaftNode.finishElection
    split
    · exact A.congr rfl rfl rfl
    · exact A
  | requestVote req => cases hs; exact A.follows (Follows.handleRequestVote node req)
  | appendEntries req => cases hs; exact A.handleAppendEntries req ha
  | replicateReply term entries peer resp now =>
    cases hs
    exact A.replicateReply term entries peer resp now
  | confirmReply term acks peer resp now =>
    cases hs
    exact A.follows (Follows.confirmReply node term acks peer resp now)
  | propose entry =>
    simp only [RaftNode.next, RaftNode.proposeAppend] at hs
    split at hs
    · cases hs; exact A
    · rename_i hok
      split at hok <;> cases hok
      cases hs
      exact A.append _
  | restart => exact A.restart ha hs

end AppliedOk

section Results

variable {config : ClusterConfig} {hash : Bytes → Nat} {node : RaftNode}

/-- **The store is the replay of a committed prefix of the node's own log**, in every run that
meets `keepsCommitted`. -/
theorem applied_prefix_run (hr : NodeRun config hash keepsCommitted node) :
    AppliedPrefix hash node := by
  suffices A : AppliedOk hash node from A.toAppliedPrefix
  induction hr with
  | init => exact ⟨Log.Contiguous.empty, Nat.le_refl _, Nat.le_refl _, rfl⟩
  | step _ ha hs ih => exact ih.next ha hs

theorem applied_prefix_run_follower :
    ∃ node, NodeRun (Membership.trio.configOf 2) (fun _ => 0) keepsCommitted node ∧
      node.storage.lastAppliedIndex = 2 ∧ AppliedPrefix (fun _ => 0) node := by
  obtain ⟨node, hr, hs⟩ : ∃ node, NodeRun (Membership.trio.configOf 2) (fun _ => 0)
      keepsCommitted node ∧ decide (node.storage.lastAppliedIndex = 2) = true :=
    exists_run
      [.restart, .appendEntries ⟨1, 1, 0, 0, 1, [⟨1, 1, .kSet, [97], [49]⟩]⟩,
        .appendEntries ⟨1, 1, 0, 0, 2,
          [⟨1, 1, .kSet, [97], [49]⟩, ⟨1, 2, .kDelete, [97], []⟩]⟩] (by decide +kernel)
  exact ⟨node, hr, of_decide_eq_true hs, applied_prefix_run hr⟩

/-- **In general the applied prefix is not committed**: node 1 leads term 1, appends an entry and
is restarted before any peer has it. -/
theorem recovery_applies_uncommitted :
    ¬ ∀ (config : ClusterConfig) (hash : Bytes → Nat) (node : RaftNode),
      validate config = .Ok → NodeRun config hash anyStep node → AppliedPrefix hash node := by
  intro hall
  obtain ⟨node, hr, hs⟩ : ∃ node, NodeRun (Membership.trio.configOf 1) (fun _ => 0) anyStep node ∧
      decide (node.storage.lastAppliedIndex = 1 ∧ node.commitIndex = 0) = true :=
    exists_run
      [.startElection, .voteReply 1 1 ⟨1, true⟩, .finishElection 1 2,
        .propose { op := .kSet, key := [97], value := [49] }, .restart] (by decide +kernel)
  obtain ⟨happlied, hcommit⟩ := of_decide_eq_true hs
  have hle := (hall _ _ node (by decide) hr).applied_le
  omega

/-- The recovered entry stays in the store when the next leader overwrites it in the log: the
second half of `AppliedPrefix` fails as well. -/
theorem recovered_entry_outlives_log :
    ¬ ∀ (config : ClusterConfig) (hash : Bytes → Nat) (node : RaftNode),
      validate config = .Ok → NodeRun config hash anyStep node →
        node.storage.kv =
          replay (ShardedKV.empty hash) (node.log.entries.take node.storage.lastAppliedIndex) := by
  intro hall
  obtain ⟨node, hr, hs⟩ : ∃ node, NodeRun (Membership.trio.configOf 1) (fun _ => 0) anyStep node ∧
      decide (node.storage.lastAppliedIndex = 1 ∧
        node.log.entries = [⟨2, 1, .kSet, [98], [50]⟩] ∧
        getResponse node.storage.kv [97] = { status := .kOk, value := [49] }) = true :=
    exists_run
      [.startElection, .voteReply 1 1 ⟨1, true⟩, .finishElection 1 2,
        .propose { op := .kSet, key := [97], value := [49] }, .restart,
        .appendEntries ⟨2, 2, 0, 0, 0, [⟨2, 1, .kSet, [98], [50]⟩]⟩] (by decide +kernel)
  obtain ⟨happlied, hlog, hget⟩ := of_decide_eq_true hs
  rw [hall _ _ node (by decide) hr, happlied, hlog] at hget
  exact absurd hget (by decide +kernel)

end Results

end NeuralKV
