import NeuralKV.Raft.SimulationStep

/-!
# Commit and apply indices

What a step of the cluster does to the commit side of a node:

* `Effect` — the six kinds of change: following (term, vote and bookkeeping only), being elected,
  proposing, accepting entries, advancing the commit index, restarting.  `move_effect` is the
  inversion; the invariants about commit indices are proved by cases on `Effect`.
* `move_sent` — a new append request carries the sender's term and commit index.
* `CommitInv` — in every run: no commit index on a node or in a request passes what some leader
  has committed in a term the node has reached (`Backed`), every committed entry has been applied,
  and a leader's commit index covers everything it has committed itself.
-/

set_option autoImplicit false

namespace NeuralKV

open Consensus Cluster
open Runs (anyStep exists_run)

/-! ## Effects -/

/-- Only term, vote, role and bookkeeping have changed, and no leadership was gained. -/
structure Follows (r r' : RaftNode) : Prop where
  term : r.currentTerm ≤ r'.currentTerm
  log : r'.log = r.log
  commitIndex : r'.commitIndex = r.commitIndex
  storage : r'.storage = r.storage
  leader : r'.state = .kLeader → r.state = .kLeader ∧ r'.currentTerm = r.currentTerm

theorem Follows.refl (r : RaftNode) : Follows r r :=
  ⟨Nat.le_refl _, rfl, rfl, rfl, fun h => ⟨h, rfl⟩⟩

theorem Follows.becomeFollower {r : RaftNode} {T : Nat} (h : r.currentTerm < T) :
    Follows r (r.becomeFollower T) :=
  ⟨Nat.le_of_lt h, rfl, rfl, rfl, fun hl => by cases hl⟩

theorem Follows.observeTerm (r : RaftNode) (T : Nat) : Follows r (r.observeTerm T) := by
  rcases r.observeTerm_cases T with ⟨_, h⟩ | ⟨hT, h⟩ <;> rw [h]
  · exact Follows.refl r
  · exact Follows.becomeFollower hT

theorem Follows.handleRequestVote (r : RaftNode) (req : RequestVoteRequest) :
    Follows r (r.handleRequestVote req).1 := by
  have F := Follows.observeTerm r req.term
  rcases r.handleRequestVote_cases req with h | ⟨_, _, _, h⟩ <;> rw [h]
  · exact F
  · exact ⟨F.term, F.log, F.commitIndex, F.storage, F.leader⟩

theorem Follows.acceptLeader (r : RaftNode) (req : AppendEntriesRequest) :
    Follows r (r.acceptLeader req) := by
  rcases r.acceptLeader_cases req with ⟨_, _, h⟩ | ⟨_, _, h⟩ | ⟨hT, h⟩ <;> rw [h]
  · exact ⟨Nat.le_refl _, rfl, rfl, rfl, fun hl => ⟨hl, rfl⟩⟩
  · exact ⟨Nat.le_refl _, rfl, rfl, rfl, fun hl => by cases hl⟩
  · exact ⟨Nat.le_of_lt hT, rfl, rfl, rfl, fun hl => by cases hl⟩

theorem Follows.startElection (r : RaftNode) (config : ClusterConfig) :
    Follows r (r.startElection config).1 :=
  ⟨Nat.le_succ _, rfl, rfl, rfl, fun hl => by cases hl⟩

theorem Follows.voteReply (r : RaftNode) (term votes : Nat) (resp : RequestVoteResponse) :
    Follows r (r.voteReply term votes resp).1 := by
  rcases r.voteReply_cases term votes resp with h | ⟨hT, h⟩ | ⟨_, h⟩ | h <;> rw [h]
  · exact Follows.refl r
  · exact Follows.becomeFollower hT
  · exact Follows.refl r
  · exact Follows.refl r

theorem Follows.confirmReply (r : RaftNode) (term acks : Nat) (peer : NodeId)
    (resp : AppendEntriesResponse) (now : Nat) :
    Follows r (r.confirmReply term acks peer resp now).1 := by
  rcases r.confirmReply_cases term acks peer resp now with
    ⟨hT, h⟩ | h | ⟨_, _, _, h⟩ | ⟨_, _, h⟩ <;> rw [h]
  · exact Follows.becomeFollower hT
  · exact Follows.refl r
  · exact ⟨Nat.le_refl _, rfl, rfl, rfl, fun hl => ⟨hl, rfl⟩⟩
  · exact Follows.refl r

theorem Follows.recordAck (r : RaftNode) (entries : List LogEntry) (peer : NodeId) (now : Nat) :
    Follows r (r.recordAck entries peer now) := by
  obtain ⟨h₁, h₂, h₃, h₄, h₅⟩ := r.recordAck_fields entries peer now
  exact ⟨Nat.le_of_eq h₂.symm, h₃, h₁, h₅, fun hl => ⟨h₄ ▸ hl, h₂⟩⟩

/-- The store after the commit index has moved to an index `c` of the log. -/
theorem Follows.committed_storage {r r₁ : RaftNode} (hf : Follows r r₁) (hcont : r.log.Contiguous)
    {c : Nat} (hc : c ≤ r.log.entries.length) :
    (RaftNode.applyCommittedEntries { r₁ with commitIndex := c }).storage =
      { kv := replay r.storage.kv ((r.log.entries.drop r.storage.lastAppliedIndex).take
          (c - r.storage.lastAppliedIndex))
        lastAppliedIndex := max r.storage.lastAppliedIndex c
        applied := r.storage.applied ++ (r.log.entries.drop r.storage.lastAppliedIndex).take
          (c - r.storage.lastAppliedIndex) } := by
  have hcont' : ({ r₁ with commitIndex := c } : RaftNode).log.Contiguous := by
    show r₁.log.Contiguous
    rw [hf.log]
    exact hcont
  rw [RaftNode.applyCommittedEntries_storage hcont']
  simp only [hf.log, hf.storage, Nat.min_eq_left hc]

/-- The node after an accepted append request. -/
def RaftNode.appended (r : RaftNode) (req : AppendEntriesRequest) : RaftNode :=
  ({ r.acceptLeader req with
      log := RaftNode.appendLoop r.log req.prevLogIndex req.entries } : RaftNode).followCommit
    req.leaderCommit

/-- The kinds of change a step `a` makes to node `n`, with the events it adds. -/
inductive Effect (m : Membership) (s : Cluster) (a : Action) (n : NodeId) :
    RaftNode → List Event → Prop where
  | follows {r' : RaftNode} {evs : List Event} (hf : Follows (s.servers n).raft r')
      (hev : ∀ ev ∈ evs, ev.ledTerm = none ∧ ∀ k T N L, ev ≠ .advanced k T N L) :
      Effect m s a n r' evs
  | elected {req : RequestVoteRequest} {votes : Nat}
      (he : (s.servers n).election = some ⟨req, votes, [], none⟩)
      (hst : (s.servers n).raft.state = .kCandidate)
      (hterm : (s.servers n).raft.currentTerm = req.term)
      (hmaj : (m.configOf n).majority ≤ votes) :
      Effect m s a n ((s.servers n).raft.becomeLeader (m.configOf n))
        [.becameLeader n req.term (s.servers n).raft.log.entries]
  | proposed {entry : LogEntry} (hl : (s.servers n).raft.state = .kLeader) :
      Effect m s a n { (s.servers n).raft with log := (s.servers n).raft.log.append entry }
        [.proposed n entry]
  | appended {rpc : Nat} {r : Rpc} {req : AppendEntriesRequest} (ha : a = .deliver rpc)
      (hr : s.rpcs[rpc]? = some r) (hreq : r.req = .appendEntries req) (hn : r.callee = n)
      (hle : (s.servers n).raft.currentTerm ≤ req.term)
      (hprev : ((s.servers n).raft.acceptLeader req).prevMismatch req = false) :
      Effect m s a n ((s.servers n).raft.appended req) []
  | advanced {r₁ : RaftNode} {c : Nat} {entry : LogEntry}
      (hl : (s.servers n).raft.state = .kLeader) (hf : Follows (s.servers n).raft r₁)
      (hterm : r₁.currentTerm = (s.servers n).raft.currentTerm)
      (hlt : (s.servers n).raft.commitIndex < c) (hget : (s.servers n).raft.log.get c = some entry) :
      Effect m s a n (RaftNode.applyCommittedEntries { r₁ with commitIndex := c })
        [.advanced n (s.servers n).raft.currentTerm c (s.servers n).raft.log.entries]
  | restarted {r' : RaftNode} (ha : a = .act n .restart)
      (hr : (s.servers n).raft.restart = some r') : Effect m s a n r' []

section Inversion

variable {m : Membership} {s s' : Cluster} {a : Action} {n : NodeId}

theorem effect_appendEntries {rpc : Nat} {r : Rpc} {req : AppendEntriesRequest}
    (hr : s.rpcs[rpc]? = some r) (hreq : r.req = .appendEntries req) :
    Effect m s (.deliver rpc) r.callee
      ((s.servers r.callee).raft.handleAppendEntries req).1 [] := by
  rcases (s.servers r.callee).raft.handleAppendEntries_cases req with
    ⟨_, h⟩ | ⟨_, h⟩ | ⟨hle, hprev, h⟩ <;> rw [h]
  · exact .follows (Follows.refl _) (fun _ hev => by cases hev)
  · exact .follows (Follows.acceptLeader _ _) (fun _ hev => by cases hev)
  · exact .appended rfl hr hreq rfl hle hprev

theorem effect_endElection {req : RequestVoteRequest} {votes : Nat}
    (he : (s.servers n).election = some ⟨req, votes, [], none⟩) :
    Effect m s a n ((s.servers n).raft.finishElection (m.configOf n) req.term votes).1
      (if ((s.servers n).raft.finishElection (m.configOf n) req.term votes).2 then
        [.becameLeader n req.term (s.servers n).raft.log.entries] else []) := by
  unfold RaftNode.finishElection
  split
  · rename_i hwon
    exact .elected he hwon.1 hwon.2.1 hwon.2.2
  · exact .follows (Follows.refl _) (fun _ hev => by cases hev)

theorem effect_replicateReply (req : AppendEntriesRequest) (peer : NodeId)
    (resp : AppendEntriesResponse) (now : Nat) {raft : RaftNode}
    (hraft : raft = (s.servers n).raft.replicateReply req.term req.entries peer resp now) :
    Effect m s a n raft
      (if raft.commitIndex = (s.servers n).raft.commitIndex then []
        else [.advanced n (s.servers n).raft.currentTerm raft.commitIndex
          (s.servers n).raft.log.entries]) := by
  have quiet : Follows (s.servers n).raft raft → Effect m s a n raft
      (if raft.commitIndex = (s.servers n).raft.commitIndex then []
        else [.advanced n (s.servers n).raft.currentTerm raft.commitIndex
          (s.servers n).raft.log.entries]) := by
    intro F
    rw [if_pos F.commitIndex]
    exact .follows F (fun _ hev => by cases hev)
  have F := Follows.recordAck (s.servers n).raft req.entries peer now
  obtain ⟨_, hterm, _, _, _⟩ := (s.servers n).raft.recordAck_fields req.entries peer now
  rcases (s.servers n).raft.replicateReply_cases req.term req.entries peer resp now with
    h | ⟨hT, h⟩ | ⟨hl, _, _, h⟩ | ⟨hl, _, _, h⟩ <;> rw [h] at hraft
  · exact quiet (hraft ▸ Follows.refl _)
  · exact quiet (hraft ▸ Follows.becomeFollower hT)
  · rcases ((s.servers n).raft.recordAck req.entries peer now).advanceCommitIndex_cases with
      h₁ | ⟨c, entry, hlt, hget, _, _, h₁⟩ <;> rw [h₁] at hraft
    · exact quiet (hraft ▸ F)
    · rw [F.commitIndex] at hlt
      rw [F.log] at hget
      have hc : raft.commitIndex = c := by rw [hraft]; rfl
      rw [hc, if_neg (by omega), hraft]
      exact .advanced hl F hterm hlt hget
  · refine quiet (hraft ▸ ?_)
    exact ⟨Nat.le_refl _, rfl, rfl, rfl, fun hl => ⟨hl, rfl⟩⟩

theorem answered_silent {events : List Event}
    (hevents : ∀ ev ∈ events, ∃ e resp, ev = .answered n e resp) :
    ∀ ev ∈ events, ev.ledTerm = none ∧ ∀ k T N L, ev ≠ .advanced k T N L := by
  intro ev hev
  obtain ⟨e, resp, rfl⟩ := hevents ev hev
  refine ⟨rfl, ?_⟩
  intro k T N L h
  cases h

theorem effect_write {w : Write} {raft : RaftNode} {next : Option Write} {events : List Event}
    (hmove : WriteMove n (s.servers n).raft w raft next events) : Effect m s a n raft events := by
  cases hmove with
  | passed _ hevents => exact .follows (Follows.refl _) (answered_silent hevents)
  | proposed _ hl _ => exact .proposed hl
  | returned _ _ _ hevents =>
    refine .follows (Follows.refl _) (List.forall_mem_cons.mpr ⟨⟨rfl, ?_⟩, answered_silent hevents⟩)
    intro k T N L h
    cases h

theorem effect_read {config : ClusterConfig} {rd : Read} {now pos nextRpc : Nat}
    {reply : Option AppendEntriesResponse} {out : ReadOutcome}
    (hmove : ReadMove config (s.servers n).raft rd now pos nextRpc reply out) :
    Effect m s a n out.raft out.events := by
  cases hmove <;> refine .follows ?_ ?_
  all_goals first
    | exact Follows.refl _
    | exact Follows.confirmReply _ _ _ _ _ _
    | simp [Event.ledTerm]

/-- What `Cluster.update` shows of an effect. -/
theorem effect_update {srv : Server} (send : Option (NodeId × Request)) {evs : List Event}
    (E : Effect m s a n srv.raft evs) :
    ∃ n' r' evs', Effect m s a n' r' evs' ∧ ((s.update n srv send evs).servers n').raft = r' ∧
      (∀ k, k ≠ n' → ((s.update n srv send evs).servers k).raft = (s.servers k).raft) ∧
      (s.update n srv send evs).history = s.history ++ evs' := by
  refine ⟨n, srv.raft, evs, E, ?_, ?_, rfl⟩
  · simp [Cluster.update]
  · intro k hk
    simp [Cluster.update, hk]

/-- **Every step changes one node by one of the effects.** -/
theorem move_effect (mv : Move m s a s') :
    ∃ n r' evs, Effect m s a n r' evs ∧ (s'.servers n).raft = r' ∧
      (∀ k, k ≠ n → (s'.servers k).raft = (s.servers k).raft) ∧ s'.history = s.history ++ evs := by
  have quiet : ∀ {n : NodeId} {r' : RaftNode}, Follows (s.servers n).raft r' →
      Effect m s a n r' [] := fun hf => .follows hf (fun _ hev => by cases hev)
  have idle : ∀ {n : NodeId}, Effect m s a n (s.servers n).raft [] := quiet (Follows.refl _)
  cases mv with
  | tick d => exact ⟨0, _, [], idle, rfl, fun _ _ => rfl, (List.append_nil _).symm⟩
  | requestVote _ hr hreq _ => exact effect_update none (quiet (Follows.handleRequestVote _ _))
  | appendEntries _ hr hreq _ => exact effect_update none (effect_appendEntries hr hreq)
  | crash _ _ => exact effect_update _ idle
  | restart _ _ hr => exact effect_update _ (.restarted rfl hr)
  | startElection _ _ _ => exact effect_update _ (quiet (Follows.startElection _ _))
  | callVoter _ _ => exact effect_update _ idle
  | voteLost _ _ => exact effect_update _ idle
  | voteReply _ _ _ => exact effect_update _ (quiet (Follows.voteReply _ _ _ _))
  | endElection _ he => exact effect_update _ (effect_endElection he)
  | replicateIdle _ => exact ⟨0, _, [], idle, rfl, fun _ _ => rfl, (List.append_nil _).symm⟩
  | replicate _ _ _ _ => exact effect_update _ idle
  | replicateReply _ _ _ _ _ hraft => exact effect_update _ (effect_replicateReply _ _ _ _ hraft)
  | write _ _ => exact effect_update _ idle
  | writeStep _ _ hmove => exact effect_update _ (effect_write hmove)
  | read _ _ => exact effect_update _ idle
  | readStep _ _ hmove => exact effect_update _ (effect_read hmove)
  | readLost _ _ _ => exact effect_update _ idle

/-- What holds of the node that a step changed, and of the others as they were, holds of all. -/
theorem forall_effect {r' : RaftNode} (hn : (s'.servers n).raft = r')
    (hother : ∀ k, k ≠ n → (s'.servers k).raft = (s.servers k).raft)
    {P : NodeId → RaftNode → Prop} (self : P n r')
    (other : ∀ k, k ≠ n → P k (s.servers k).raft) (k : NodeId) : P k (s'.servers k).raft := by
  by_cases hk : k = n
  · rw [hk, hn]
    exact self
  · rw [hother k hk]
    exact other k hk

/-- What an append request tells of its sender's state. -/
def Tells (s : Cluster) (r : Rpc) : Prop :=
  ∀ req, r.req = .appendEntries req →
    req.term = (s.servers r.caller).raft.currentTerm ∧
      req.leaderCommit = (s.servers r.caller).raft.commitIndex

/-- **A new append request carries its sender's term and commit index.** -/
theorem move_sent (mv : Move m s a s') : ∀ r ∈ s'.rpcs, r ∈ s.rpcs ∨ Tells s r := by
  have old : ∀ r ∈ s.rpcs ++ [], r ∈ s.rpcs ∨ Tells s r := by
    intro r hr
    rw [List.append_nil] at hr
    exact Or.inl hr
  have new : ∀ {r₀ : Rpc}, Tells s r₀ → ∀ r ∈ s.rpcs ++ [r₀], r ∈ s.rpcs ∨ Tells s r := by
    intro r₀ ht r hr
    rcases List.mem_append.mp hr with h | h
    · exact Or.inl h
    · obtain rfl := List.mem_singleton.mp h
      exact Or.inr ht
  cases mv with
  | tick d => exact fun r hr => Or.inl hr
  | replicateIdle _ => exact fun r hr => Or.inl hr
  | callVoter _ _ => exact new (fun _ h => by cases h)
  | replicate _ _ _ hreq =>
    refine new ?_
    intro req' h
    cases h
    unfold RaftNode.replicateRequest at hreq
    split at hreq <;> cases hreq
    exact ⟨rfl, rfl⟩
  | readStep _ _ hmove =>
    cases hmove with
    | sent hstage hreq =>
      refine new ?_
      intro req' h
      cases h
      unfold RaftNode.confirmRequest at hreq
      split at hreq <;> cases hreq
      rename_i hlive
      exact ⟨(RaftNode.leader_of_live hlive).2.symm, rfl⟩
    | _ => exact old
  | _ => exact old

end Inversion

/-! ## The invariant -/

/-- Some leader of a term up to `T` has committed index `c`. -/
def Backed (hist : List Event) (T c : Nat) : Prop :=
  c = 0 ∨ ∃ n T' N L, Event.advanced n T' N L ∈ hist ∧ T' ≤ T ∧ c ≤ N

theorem Backed.mono {hist evs : List Event} {T T' c c' : Nat} (h : Backed hist T c) (hT : T ≤ T')
    (hc : c' ≤ c) : Backed (hist ++ evs) T' c' := by
  rcases h with h | ⟨n, U, N, L, hmem, hU, hN⟩
  · exact Or.inl (by omega)
  · exact Or.inr ⟨n, U, N, L, List.mem_append_left _ hmem, by omega, by omega⟩

structure CommitInv (s : Cluster) : Prop where
  backed : ∀ n, Backed s.history (s.servers n).raft.currentTerm (s.servers n).raft.commitIndex
  sent : ∀ r ∈ s.rpcs, ∀ req, r.req = .appendEntries req →
    Backed s.history req.term req.leaderCommit
  applied : ∀ n, (s.servers n).raft.commitIndex ≤ (s.servers n).raft.storage.lastAppliedIndex
  own : ∀ n, (s.servers n).raft.state = .kLeader → ∀ N L,
    Event.advanced n (s.servers n).raft.currentTerm N L ∈ s.history →
      N ≤ (s.servers n).raft.commitIndex

section Preservation

variable {m : Membership} {h : Hist} {s s' : Cluster} {a : Action} {n : NodeId} {r' : RaftNode}
  {evs : List Event}

/-- What a request delivered to `n` says. -/
theorem Sim.delivered (S : Sim m h s) {rpc : Nat} {r : Rpc} {req : AppendEntriesRequest}
    (hr : s.rpcs[rpc]? = some r) (hreq : r.req = .appendEntries req) (hn : r.callee = n) :
    AppendReqSim h r.caller n req := by
  subst hn
  exact (S.rpcs r (List.mem_of_getElem? hr)).1.append req hreq

/-- The log of a node after it has accepted a request. -/
theorem RaftNode.appended_log (r : RaftNode) (req : AppendEntriesRequest) :
    (r.appended req).log = RaftNode.appendLoop r.log req.prevLogIndex req.entries := by
  unfold RaftNode.appended
  exact (RaftNode.followCommit_fields _ req.leaderCommit).1

/-- The two outcomes of an accepted request on the commit side: nothing moves, or the commit
index becomes the smaller of the leader's and the new last index and is applied. -/
theorem RaftNode.appended_cases (r : RaftNode) (req : AppendEntriesRequest)
    (hc : (RaftNode.appendLoop r.log req.prevLogIndex req.entries).Contiguous) :
    ((r.appended req).commitIndex = r.commitIndex ∧ (r.appended req).storage = r.storage) ∨
      (r.commitIndex < req.leaderCommit ∧
        (r.appended req).commitIndex =
          min req.leaderCommit (r.appended req).log.entries.length ∧
        (r.appended req).storage =
          { kv := replay r.storage.kv
              (((r.appended req).log.entries.drop r.storage.lastAppliedIndex).take
                ((r.appended req).commitIndex - r.storage.lastAppliedIndex))
            lastAppliedIndex := max r.storage.lastAppliedIndex (r.appended req).commitIndex
            applied := r.storage.applied ++
              ((r.appended req).log.entries.drop r.storage.lastAppliedIndex).take
                ((r.appended req).commitIndex - r.storage.lastAppliedIndex) }) := by
  obtain ⟨hl, hs, hci⟩ := r.acceptLeader_fields req
  rw [r.appended_log req]
  unfold RaftNode.appended
  rcases RaftNode.followCommit_cases
    { r.acceptLeader req with log := RaftNode.appendLoop r.log req.prevLogIndex req.entries }
    req.leaderCommit with ⟨_, h⟩ | ⟨hlt, h⟩ <;> rw [h]
  · exact Or.inl ⟨hci, hs⟩
  · refine Or.inr ⟨by rw [← hci]; exact hlt, ?_, ?_⟩
    · show min req.leaderCommit (RaftNode.appendLoop r.log _ _).lastIndex = _
      rw [hc.lastIndex_eq]
    · refine (RaftNode.applyCommittedEntries_storage hc).trans ?_
      show (Storage.mk _ _ _ : Storage) = _
      simp only [hs, RaftNode.applyCommittedEntries, hc.lastIndex_eq]
      rw [Nat.min_eq_left (Nat.min_le_right _ _)]

theorem RaftNode.appended_term {r : RaftNode} {req : AppendEntriesRequest}
    (h : r.currentTerm ≤ req.term) :
    (r.appended req).currentTerm = req.term ∧
      (r.appended req).state = (r.acceptLeader req).state := by
  have ht := RaftNode.acceptLeader_term h
  unfold RaftNode.appended
  rcases RaftNode.followCommit_cases
    { r.acceptLeader req with log := RaftNode.appendLoop r.log req.prevLogIndex req.entries }
    req.leaderCommit with ⟨_, h⟩ | ⟨_, h⟩ <;> rw [h] <;> exact ⟨ht, rfl⟩

/-- A node that accepts a request does not lead the request's term. -/
theorem Sim.appended_not_leader (S : Sim m h s) {req : AppendEntriesRequest} {c : NodeId}
    (R : AppendReqSim h c n req) (hle : (s.servers n).raft.currentTerm ≤ req.term) :
    ((s.servers n).raft.appended req).state ≠ .kLeader := by
  rw [(RaftNode.appended_term hle).2]
  intro hl
  obtain ⟨hst, hcur⟩ := (Follows.acceptLeader (s.servers n).raft req).leader hl
  rw [RaftNode.acceptLeader_term hle] at hcur
  have hlead := ((S.node n).leader hst).leads
  rw [← hcur, R.leads] at hlead
  exact R.ne (Option.some.inj hlead)

/-- What a step does to the store of a node: nothing, or it applies entries of the node's log up to
the commit index, or the process starts again. -/
inductive StoreEffect (a : Action) (n : NodeId) (r r' : RaftNode) : Prop where
  | same (hc : r'.commitIndex = r.commitIndex) (hst : r'.storage = r.storage)
  | applied (hst : r'.storage =
      { kv := replay r.storage.kv ((r'.log.entries.drop r.storage.lastAppliedIndex).take
          (r'.commitIndex - r.storage.lastAppliedIndex))
        lastAppliedIndex := max r.storage.lastAppliedIndex r'.commitIndex
        applied := r.storage.applied ++ (r'.log.entries.drop r.storage.lastAppliedIndex).take
          (r'.commitIndex - r.storage.lastAppliedIndex) })
  | restarted (ha : a = .act n .restart) (hr : r.restart = some r')

theorem Effect.store (E : Effect m s a n r' evs) (I : HInv m h) (S : Sim m h s) :
    StoreEffect a n (s.servers n).raft r' := by
  have N := S.node n
  cases E with
  | follows hf _ => exact .same hf.commitIndex hf.storage
  | elected _ _ _ _ => exact .same rfl rfl
  | proposed _ => exact .same rfl rfl
  | appended _ hr hreq hn _ hprev =>
    obtain ⟨_, hcont⟩ := N.appendLoop_spliced I S.books (S.delivered hr hreq hn) hprev
    rcases (s.servers n).raft.appended_cases _ hcont with ⟨hc, hst⟩ | ⟨_, _, hst⟩
    · exact .same hc hst
    · exact .applied hst
  | advanced _ hf _ _ hget =>
    refine .applied ?_
    refine (hf.committed_storage N.contiguous (N.contiguous.le_of_get hget)).trans ?_
    rw [← hf.log]
    rfl
  | restarted ha hr => exact .restarted ha hr

theorem backed_effect (I : HInv m h) (S : Sim m h s) (C : CommitInv s)
    (E : Effect m s a n r' evs) : Backed (s.history ++ evs) r'.currentTerm r'.commitIndex := by
  have old := C.backed n
  cases E with
  | follows hf _ => exact old.mono hf.term (Nat.le_of_eq hf.commitIndex)
  | elected _ _ _ _ => exact old.mono (Nat.le_refl _) (Nat.le_refl _)
  | proposed _ => exact old.mono (Nat.le_refl _) (Nat.le_refl _)
  | appended _ hr hreq hn hle hprev =>
    have R := S.delivered hr hreq hn
    obtain ⟨_, hcont⟩ := (S.node n).appendLoop_spliced I S.books R hprev
    rw [(RaftNode.appended_term hle).1]
    rcases (s.servers n).raft.appended_cases _ hcont with ⟨hc, _⟩ | ⟨_, hc, _⟩ <;> rw [hc]
    · exact old.mono hle (Nat.le_refl _)
    · exact (C.sent _ (List.mem_of_getElem? hr) _ hreq).mono (Nat.le_refl _) (Nat.min_le_left _ _)
  | advanced _ _ hterm _ _ =>
    refine Or.inr ⟨n, _, _, _, List.mem_append_right _ (List.mem_singleton_self _), ?_, Nat.le_refl _⟩
    exact Nat.le_of_eq hterm.symm
  | restarted _ hr =>
    exact Or.inl (RaftNode.restart_spec (S.node n).contiguous hr).commitIndex

theorem applied_effect (I : HInv m h) (S : Sim m h s) (C : CommitInv s)
    (E : Effect m s a n r' evs) : r'.commitIndex ≤ r'.storage.lastAppliedIndex := by
  cases E.store I S with
  | same hc hst =>
    rw [hc, hst]
    exact C.applied n
  | applied hst =>
    rw [hst]
    exact Nat.le_max_right _ _
  | restarted _ hr =>
    rw [(RaftNode.restart_spec (S.node n).contiguous hr).commitIndex]
    exact Nat.zero_le _

/-- A commitment in the extended history is an old one or the one just made. -/
theorem advanced_effect (E : Effect m s a n r' evs) {k : NodeId} {T N : Nat} {L : List LogEntry}
    (hmem : Event.advanced k T N L ∈ s.history ++ evs) :
    Event.advanced k T N L ∈ s.history ∨
      (k = n ∧ T = (s.servers n).raft.currentTerm ∧ N = r'.commitIndex) := by
  rcases List.mem_append.mp hmem with h₁ | h₁
  · exact Or.inl h₁
  · right
    cases E with
    | follows _ hev => exact absurd rfl ((hev _ h₁).2 k T N L)
    | elected _ _ _ _ => cases List.mem_singleton.mp h₁
    | proposed _ => cases List.mem_singleton.mp h₁
    | appended => cases h₁
    | advanced _ _ _ _ _ =>
      cases List.mem_singleton.mp h₁
      exact ⟨rfl, rfl, rfl⟩
    | restarted _ _ => cases h₁

/-- An election in the extended history is an old one or the one just won. -/
theorem becameLeader_effect (E : Effect m s a n r' evs) {k : NodeId} {T : Nat}
    {L : List LogEntry} (hmem : Event.becameLeader k T L ∈ s.history ++ evs) :
    Event.becameLeader k T L ∈ s.history ∨ k = n := by
  rcases List.mem_append.mp hmem with h₁ | h₁
  · exact Or.inl h₁
  · right
    cases E with
    | follows _ hev => cases (hev _ h₁).1
    | elected _ _ _ _ =>
      cases List.mem_singleton.mp h₁
      rfl
    | proposed _ => cases List.mem_singleton.mp h₁
    | appended => cases h₁
    | advanced _ _ _ _ _ => cases List.mem_singleton.mp h₁
    | restarted _ _ => cases h₁

theorem own_effect (I : HInv m h) (S : Sim m h s) (C : CommitInv s) (E : Effect m s a n r' evs)
    (hl : r'.state = .kLeader) {N : Nat} {L : List LogEntry}
    (hmem : Event.advanced n r'.currentTerm N L ∈ s.history ++ evs) : N ≤ r'.commitIndex := by
  rcases advanced_effect E hmem with hold | ⟨_, _, hN⟩
  · cases E with
    | follows hf _ =>
      obtain ⟨hst, hterm⟩ := hf.leader hl
      rw [hf.commitIndex]
      rw [hterm] at hold
      exact C.own n hst N L hold
    | elected he hst hterm hmaj =>
      have hfree := S.won_free I he hst hterm hmaj
      have hlead : h.leader (s.servers n).raft.currentTerm = some n := (S.history.events _ hold).1
      rw [hlead] at hfree
      cases hfree
    | proposed hst => exact C.own n hst N L hold
    | appended _ hr hreq hn hle _ =>
      exact absurd hl (S.appended_not_leader (S.delivered hr hreq hn) hle)
    | advanced hst _ hterm hlt _ =>
      have := C.own n hst N L (hterm ▸ hold)
      exact Nat.le_trans this (Nat.le_of_lt hlt)
    | restarted _ hr =>
      rw [(RaftNode.restart_spec (S.node n).contiguous hr).state] at hl
      cases hl
  · exact Nat.le_of_eq hN

/-- **The commit invariant is kept by every step.** -/
theorem commitInv_step (I : HInv m h) (S : Sim m h s) (C : CommitInv s) (mv : Move m s a s') :
    CommitInv s' := by
  have hsent := move_sent mv
  obtain ⟨n, r', evs, E, hn, hother, hhist⟩ := move_effect mv
  subst hn
  refine ⟨?_, ?_, ?_, ?_⟩
  · rw [hhist]
    exact forall_effect rfl hother
      (P := fun _ r => Backed (s.history ++ evs) r.currentTerm r.commitIndex)
      (backed_effect I S C E)
      (fun k _ => (C.backed k).mono (Nat.le_refl _) (Nat.le_refl _))
  · intro r hr req hreq
    rw [hhist]
    rcases hsent r hr with h₁ | h₁
    · exact (C.sent r h₁ req hreq).mono (Nat.le_refl _) (Nat.le_refl _)
    · obtain ⟨ht, hc⟩ := h₁ req hreq
      rw [ht, hc]
      exact (C.backed r.caller).mono (Nat.le_refl _) (Nat.le_refl _)
  · exact forall_effect rfl hother (P := fun _ r => r.commitIndex ≤ r.storage.lastAppliedIndex)
      (applied_effect I S C E) (fun k _ => C.applied k)
  · rw [hhist]
    refine forall_effect rfl hother
      (P := fun k r => r.state = .kLeader → ∀ N L,
        Event.advanced k r.currentTerm N L ∈ s.history ++ evs → N ≤ r.commitIndex)
      (fun hl _ _ hmem => own_effect I S C E hl hmem) (fun k hk hl N L hmem => ?_)
    rcases advanced_effect E hmem with hold | ⟨hkn, _⟩
    · exact C.own k hl N L hold
    · exact absurd hkn hk

theorem commitInv_init (hash : Bytes → Nat) : CommitInv (Cluster.init hash) where
  backed _ := Or.inl rfl
  sent r hr := by cases hr
  applied _ := Nat.le_refl _
  own n hl := by cases hl

/-- **Every run keeps the commit invariant.** -/
theorem run_commitInv {hash : Bytes → Nat} {ok : Cluster → Action → Prop} (hr : Run m hash ok s) :
    CommitInv s := by
  induction hr with
  | init => exact commitInv_init hash
  | step hr _ hs ih =>
    obtain ⟨h, I, S⟩ := run_simulated hr
    exact commitInv_step I S ih (step_move hs)

end Preservation

end NeuralKV
