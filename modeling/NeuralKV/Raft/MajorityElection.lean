import Mathlib.Data.Finset.Max
import Mathlib.Data.Prod.Lex
import NeuralKV.Raft.CatchUp
import NeuralKV.Raft.Partition

/-!
# Elections that a majority can hold

What some members of a cluster can bring about by themselves.  The statements here say that a state
can be reached, so their proofs exhibit the steps: each section carries a call of the source from
its first lock scope to its last one, with the replies it needs given at once.

* `among` — the steps that a set of members can take alone.
* `exchange_rpc` — a request that is sent can be handled, and its reply found.
* `canvass`, `stand`, `raise_term` — the loop of `StartElection`, peer by peer; a lost election
  raises the term.
* `FitsFrame`, `cluster_round` — a call of `ReplicateToPeer` whose request the encoder accepts;
  `step_down` is one that meets a later term.
* `elect` — **a majority that is up can have a leader**, from every reachable state.
-/

set_option autoImplicit false

namespace NeuralKV

open Consensus Cluster Framing
open Runs (anyStep)

/-- Only members of `Q` act, only requests among them arrive, no process ends or starts, and as in
`RunLoop` a leader does not stand. -/
def among (Q : List NodeId) (s : Cluster) : Action → Prop
  | .tick _ => True
  | .deliver rpc => ∀ r ∈ s.rpcs[rpc]?, r.caller ∈ Q ∧ r.callee ∈ Q
  | .act _ .crash => False
  | .act _ .restart => False
  | .act n .startElection => n ∈ Q ∧ (s.servers n).raft.state ≠ .kLeader
  | .act n _ => n ∈ Q

/-! ## One RPC from call to reply -/

/-- The node and the reply once a request has been handled. -/
def RaftNode.handle (node : RaftNode) : Request → RaftNode × Response
  | .requestVote req =>
    ((node.handleRequestVote req).1, .requestVote (node.handleRequestVote req).2)
  | .appendEntries req =>
    ((node.handleAppendEntries req).1, .appendEntries (node.handleAppendEntries req).2)

section Calls

variable {m : Membership} {hash : Bytes → Nat} {Q : List NodeId} {s s' : Cluster} {n k : NodeId}

theorem run_among (hr : Run m hash anyStep s) (hr' : Runs.Run (step m) s (among Q) s') :
    Run m hash anyStep s' := hr.trans (hr'.mono fun _ _ _ => trivial)

/-- Node `n` has become `srv` and sent a request to `k`, which has handled it. -/
structure RpcDone (s : Cluster) (n k : NodeId) (srv : Server) (req : Request) (s' : Cluster) :
    Prop where
  caller : s'.servers n = srv
  callee : s'.servers k = { s.servers k with raft := ((s.servers k).raft.handle req).1 }
  others : ∀ j, j ≠ n → j ≠ k → s'.servers j = s.servers j
  rpc : s'.rpcs[s.rpcs.length]? = some ⟨n, k, req, s.history.length⟩
  reply : s'.replyTo s.rpcs.length = some ((s.servers k).raft.handle req).2
  clock : s'.clock = s.clock
  history : s'.history = s.history

/-- **A request that is sent can be handled at once**, and its reply is the only one under its
number. -/
theorem exchange_rpc (hr : Run m hash anyStep s) {a : ServerAction} {srv : Server} {req : Request}
    (ha : among Q s (.act n a))
    (hstep : s.step m (.act n a) = some (s.update n srv (some (k, req)))) (hn : n ∈ Q) (hk : k ∈ Q)
    (hne : k ≠ n) (hup : (s.servers k).up = true) :
    ∃ s', Runs.Run (step m) s (among Q) s' ∧ RpcDone s n k srv req s' := by
  obtain ⟨h, _, S⟩ := run_simulated hr
  generalize hs₁ : s.update n srv (some (k, req)) = s₁ at hstep
  have hmem : s.rpcs.length ∈ s₁.inFlight := by simp [← hs₁, Cluster.update]
  have hrpc : s₁.rpcs[s.rpcs.length]? = some ⟨n, k, req, s.history.length⟩ := by
    simp [← hs₁, Cluster.update]
  have hcallee : s₁.servers k = s.servers k := by simp [← hs₁, Cluster.update, hne]
  have hdeliver : s₁.step m (.deliver s.rpcs.length) = some (s₁.answer k
      ((s.servers k).raft.handle req).1 s.rpcs.length ((s.servers k).raft.handle req).2) := by
    show Cluster.deliver _ _ = _
    unfold Cluster.deliver
    rw [if_pos hmem, hrpc, ← hcallee]
    refine (if_pos (hcallee ▸ hup)).trans ?_
    cases req <;> rfl
  have hallowed : among Q s₁ (.deliver s.rpcs.length) := by
    intro r hget
    rw [hrpc] at hget
    cases hget
    exact ⟨hn, hk⟩
  have hnone : s.replies.find? (fun p => p.1 == s.rpcs.length) = none := by
    refine List.find?_eq_none.mpr fun p hp => ?_
    obtain ⟨r, hget, _⟩ := S.replies p hp
    have hlt := (List.getElem?_eq_some_iff.mp hget).1
    simp only [beq_iff_eq]
    omega
  refine ⟨_, .step (.step .init ha hstep) hallowed hdeliver, ?_⟩
  subst hs₁
  refine ⟨?_, ?_, fun j hjn hjk => ?_, ?_, ?_, rfl, ?_⟩
  · simp [Cluster.answer, Cluster.update, hne.symm]
  · simp [Cluster.answer, Cluster.update, Cluster.withRaft, hne]
  · simp [Cluster.answer, Cluster.update, hjn, hjk]
  · simp [Cluster.answer, Cluster.update]
  · simp [Cluster.replyTo, Cluster.answer, Cluster.update, List.find?_append, hnone]
  · simp [Cluster.answer, Cluster.update]

end Calls

/-! ## Elections -/

/-- A node that grants the vote: it is in an earlier term, and the candidate's log is at least as
up to date as its own. -/
structure Supports (req : RequestVoteRequest) (node : RaftNode) : Prop where
  term : node.currentTerm < req.term
  upToDate : node.challengerUpToDate req = true

theorem Supports.vote {req : RequestVoteRequest} {node : RaftNode} (h : Supports req node) :
    (node.handleRequestVote req).2 = ⟨req.term, true⟩ ∧
      (node.handleRequestVote req).1.log = node.log ∧
      (node.handleRequestVote req).1.currentTerm = req.term := by
  have hlog : (node.becomeFollower req.term).challengerUpToDate req = true := h.upToDate
  have hvoted : (node.becomeFollower req.term).votedFor = 0 ∨
      (node.becomeFollower req.term).votedFor = req.candidateId := Or.inl rfl
  have hcur : ¬ req.term < (node.becomeFollower req.term).currentTerm := Nat.lt_irrefl _
  unfold RaftNode.handleRequestVote
  simp only [if_pos h.term]
  rw [if_neg hcur, if_pos ⟨hvoted, hlog⟩]
  exact ⟨rfl, rfl, rfl⟩

/-- What the loop of `StartElection` leaves as it was, where only members of `V` get the request. -/
structure Canvassed (V : List NodeId) (n : NodeId) (T : Nat) (s s' : Cluster) : Prop where
  node : (s'.servers n).raft = (s.servers n).raft
  others : ∀ k, k ∉ V → (s'.servers k).raft = (s.servers k).raft
  up : ∀ k, (s'.servers k).up = (s.servers k).up
  log : ∀ k, (s'.servers k).raft.log = (s.servers k).raft.log
  term : ∀ k, (s'.servers k).raft.currentTerm ≤ max T (s.servers k).raft.currentTerm
  history : s'.history = s.history

theorem Canvassed.refl (V : List NodeId) (n : NodeId) (T : Nat) (s : Cluster) :
    Canvassed V n T s s :=
  ⟨rfl, fun _ _ => rfl, fun _ => rfl, fun _ => rfl, fun _ => Nat.le_max_right _ _, rfl⟩

theorem Canvassed.trans {V : List NodeId} {n : NodeId} {T : Nat} {s t u : Cluster}
    (h : Canvassed V n T s t) (h' : Canvassed V n T t u) : Canvassed V n T s u where
  node := h'.node.trans h.node
  others k hk := (h'.others k hk).trans (h.others k hk)
  up k := (h'.up k).trans (h.up k)
  log k := (h'.log k).trans (h.log k)
  term k := by
    have h₁ := h.term k
    have h₂ := h'.term k
    omega
  history := h'.history.trans h.history

section Elections

variable {m : Membership} {hash : Bytes → Nat} {Q V : List NodeId} {s : Cluster} {n k : NodeId}
  {req : RequestVoteRequest} {votes : Nat} {todo : List NodeId}

theorem step_callVoter (hn : n ∈ m.ids)
    (he : (s.servers n).election = some ⟨req, votes, k :: todo, none⟩) :
    s.step m (.act n .callVoter) =
      some (s.update n
        { s.servers n with election := some ⟨req, votes, todo, some s.rpcs.length⟩ }
        (some (k, .requestVote req))) := by
  simp [Cluster.step, Cluster.actStep, hn, he]

theorem step_voteLost {rpc : Nat} (hn : n ∈ m.ids)
    (he : (s.servers n).election = some ⟨req, votes, todo, some rpc⟩) :
    s.step m (.act n .voteLost) =
      some (s.update n { s.servers n with election := some ⟨req, votes, todo, none⟩ }) := by
  simp [Cluster.step, Cluster.actStep, hn, he]

/-- A step of the candidate's own thread. -/
theorem Canvassed.own {T : Nat} {s' : Cluster} (hraft : (s'.servers n).raft = (s.servers n).raft)
    (hup : (s'.servers n).up = (s.servers n).up)
    (hother : ∀ j, j ≠ n → s'.servers j = s.servers j) (hhist : s'.history = s.history) :
    Canvassed V n T s s' := by
  have hall : ∀ j, (s'.servers j).raft = (s.servers j).raft := by
    intro j
    by_cases hj : j = n
    · rw [hj, hraft]
    · rw [hother j hj]
  refine ⟨hraft, fun k _ => hall k, fun k => ?_, fun k => by rw [hall k], fun k => ?_, hhist⟩
  · by_cases hk : k = n
    · rw [hk, hup]
    · rw [hother k hk]
  · rw [hall k]
    exact Nat.le_max_right _ _

/-- A peer that is not reached. -/
theorem poll_lost (hn : n ∈ m.ids) (hQ : n ∈ Q)
    (he : (s.servers n).election = some ⟨req, votes, k :: todo, none⟩) :
    ∃ s', Runs.Run (step m) s (among Q) s' ∧
      (s'.servers n).election = some ⟨req, votes, todo, none⟩ ∧ Canvassed V n req.term s s' := by
  have hcall := step_callVoter hn he
  generalize hs₁ : s.update n _ (some (k, .requestVote req)) = s₁ at hcall
  have he₁ : (s₁.servers n).election = some ⟨req, votes, todo, some s.rpcs.length⟩ := by
    simp [← hs₁, Cluster.update]
  have hlost := step_voteLost hn he₁
  have hrun : Runs.Run (step m) s (among Q) s₁ := .step (a := .act n .callVoter) .init hQ hcall
  refine ⟨_, hrun.step (a := .act n .voteLost) hQ hlost, by simp [Cluster.update], ?_⟩
  subst hs₁
  refine Canvassed.own ?_ ?_ (fun j hj => ?_) ?_ <;> simp [Cluster.update, *]

theorem step_voteReply {rpc : Nat} {resp : RequestVoteResponse} (hn : n ∈ m.ids)
    (he : (s.servers n).election = some ⟨req, votes, todo, some rpc⟩)
    (hreply : s.replyTo rpc = some (.requestVote resp)) :
    s.step m (.act n .voteReply) =
      some (s.update n
        { s.servers n with
          raft := ((s.servers n).raft.voteReply req.term votes resp).1
          election := ((s.servers n).raft.voteReply req.term votes resp).2.map
            fun votes => { req, votes, todo } }) := by
  simp [Cluster.step, Cluster.actStep, hn, he, Cluster.voteReplyTo, hreply]

/-- A peer that grants its vote. -/
theorem poll_granted (hr : Run m hash anyStep s) (hn : n ∈ m.ids) (hQ : n ∈ Q) (hkQ : k ∈ Q)
    (hkV : k ∈ V) (hne : k ≠ n) (he : (s.servers n).election = some ⟨req, votes, k :: todo, none⟩)
    (hcand : (s.servers n).raft.state = .kCandidate)
    (hterm : (s.servers n).raft.currentTerm = req.term) (hup : (s.servers k).up = true)
    (hk : Supports req (s.servers k).raft) :
    ∃ s', Runs.Run (step m) s (among Q) s' ∧
      (s'.servers n).election = some ⟨req, votes + 1, todo, none⟩ ∧ Canvassed V n req.term s s' ∧
      ∀ j, j ≠ k → (s'.servers j).raft = (s.servers j).raft := by
  obtain ⟨hresp, hlog, hcur⟩ := hk.vote
  obtain ⟨s₁, hrun, X⟩ := exchange_rpc (a := .callVoter) hr hQ (step_callVoter hn he) hQ hkQ hne hup
  have he₁ : (s₁.servers n).election = some ⟨req, votes, todo, some s.rpcs.length⟩ := by
    rw [X.caller]
  have hreply := X.reply
  simp only [RaftNode.handle, hresp] at hreply
  have hstep := step_voteReply hn he₁ hreply
  have hcount : (s₁.servers n).raft.voteReply req.term votes ⟨req.term, true⟩ =
      ((s.servers n).raft, some (votes + 1)) := by
    rw [X.caller]
    unfold RaftNode.voteReply
    rw [if_neg (by simp [hcand, hterm]), if_neg (by simp [hterm])]
    rfl
  rw [hcount] at hstep
  generalize hs₂ : s₁.update n _ = s₂ at hstep
  have hother : ∀ j, j ≠ k → (s₂.servers j).raft = (s.servers j).raft := by
    intro j hj
    by_cases hjn : j = n
    · simp [← hs₂, Cluster.update, hjn]
    · simp [← hs₂, Cluster.update, hjn, X.others j hjn hj]
  have hvoter : (s₂.servers k).raft = ((s.servers k).raft.handleRequestVote req).1 := by
    simp [← hs₂, Cluster.update, hne, X.callee, RaftNode.handle]
  have hups : ∀ j, (s₂.servers j).up = (s.servers j).up := by
    intro j
    by_cases hjn : j = n
    · simp [← hs₂, Cluster.update, hjn, X.caller]
    · by_cases hjk : j = k
      · simp [← hs₂, Cluster.update, hjk, hne, X.callee]
      · simp [← hs₂, Cluster.update, hjn, X.others j hjn hjk]
  refine ⟨s₂, hrun.step (a := .act n .voteReply) hQ hstep, by simp [← hs₂, Cluster.update], ?_,
    hother⟩
  refine ⟨hother n hne.symm, fun j hj => hother j fun h => hj (h ▸ hkV), hups, fun j => ?_,
    fun j => ?_, by simp [← hs₂, Cluster.update, X.history]⟩
  · by_cases hjk : j = k
    · rw [hjk, hvoter, hlog]
    · rw [hother j hjk]
  · by_cases hjk : j = k
    · rw [hjk, hvoter, hcur]
      exact Nat.le_max_left _ _
    · rw [hother j hjk]
      exact Nat.le_max_right _ _

/-- **The loop of `StartElection`**: every peer in `V` is reached and votes, and no other. -/
theorem canvass (hn : n ∈ m.ids) (hQ : n ∈ Q) (hV : ∀ k ∈ V, k ∈ Q) :
    ∀ (todo : List NodeId) (votes : Nat) (s : Cluster), Run m hash anyStep s →
      (s.servers n).election = some ⟨req, votes, todo, none⟩ → todo.Nodup → n ∉ todo →
      (∀ k ∈ todo, k ∈ V → (s.servers k).up = true ∧ Supports req (s.servers k).raft ∧
        (s.servers n).raft.state = .kCandidate ∧ (s.servers n).raft.currentTerm = req.term) →
      ∃ s', Runs.Run (step m) s (among Q) s' ∧
        (s'.servers n).election =
          some ⟨req, votes + todo.countP (fun k => decide (k ∈ V)), [], none⟩ ∧
        Canvassed V n req.term s s'
  | [], votes, s, _, he, _, _, _ => ⟨s, .init, he, .refl V n _ s⟩
  | k :: todo, votes, s, hr, he, hnd, hnt, hV' => by
    obtain ⟨hk, hnd⟩ := List.nodup_cons.mp hnd
    have hne : k ≠ n := fun h => hnt (h ▸ List.mem_cons_self)
    -- the rest of the loop, from the state after this peer
    have rest : ∀ (votes' : Nat) (s₁ : Cluster), Runs.Run (step m) s (among Q) s₁ →
        (s₁.servers n).election = some ⟨req, votes', todo, none⟩ → Canvassed V n req.term s s₁ →
        (∀ j, j ≠ k → (s₁.servers j).raft = (s.servers j).raft) →
        ∃ s', Runs.Run (step m) s (among Q) s' ∧
          (s'.servers n).election =
            some ⟨req, votes' + todo.countP (fun k => decide (k ∈ V)), [], none⟩ ∧
          Canvassed V n req.term s s' := by
      intro votes' s₁ hrun he₁ C hsame
      obtain ⟨s', hrun', he', C'⟩ := canvass hn hQ hV todo votes' s₁ (run_among hr hrun) he₁ hnd
        (fun h => hnt (List.mem_cons_of_mem _ h)) (fun j hj hjV => by
          obtain ⟨hup, hsup, hcand, hterm⟩ := hV' j (List.mem_cons_of_mem _ hj) hjV
          rw [C.up, C.node, hsame j fun h => hk (h ▸ hj)]
          exact ⟨hup, hsup, hcand, hterm⟩)
      exact ⟨s', hrun.trans hrun', he', C.trans C'⟩
    by_cases hkV : k ∈ V
    · obtain ⟨hup, hsup, hcand, hterm⟩ := hV' k List.mem_cons_self hkV
      obtain ⟨s₁, hrun, he₁, C, hsame⟩ :=
        poll_granted hr hn hQ (hV k hkV) hkV hne he hcand hterm hup hsup
      obtain ⟨s', hrun', he', C'⟩ := rest _ s₁ hrun he₁ C hsame
      refine ⟨s', hrun', ?_, C'⟩
      rw [he', List.countP_cons, if_pos (decide_eq_true hkV)]
      simp only [Option.some.injEq, Election.mk.injEq, true_and, and_true]
      omega
    · obtain ⟨s₁, hrun, he₁, C⟩ := poll_lost (V := []) hn hQ he
      have C' : Canvassed V n req.term s s₁ :=
        { C with others := fun j _ => C.others j List.not_mem_nil }
      obtain ⟨s', hrun', he', C''⟩ := rest _ s₁ hrun he₁ C' fun j _ => C.others j List.not_mem_nil
      refine ⟨s', hrun', ?_, C''⟩
      rw [he', List.countP_cons, if_neg (by simpa using hkV), Nat.add_zero]

end Elections

/-! ## One round of replication -/

/-- A request with these entries is not too long for a frame. -/
def FitsFrame (entries : List LogEntry) : Prop :=
  13 + 40 + (encodeAll encodeLogEntry entries).length ≤ Protocol.kMaxPayloadSize

instance (entries : List LogEntry) : Decidable (FitsFrame entries) :=
  inferInstanceAs (Decidable (_ ≤ _))

theorem FitsFrame.of_append {before after : List LogEntry} (h : FitsFrame (before ++ after)) :
    FitsFrame before ∧ FitsFrame after := by
  unfold FitsFrame at *
  rw [encodeAll_append, List.length_append] at h
  exact ⟨by omega, by omega⟩

/-- The size of an entry is that of its key and its value. -/
theorem FitsFrame.concat {entries : List LogEntry} {e e' : LogEntry}
    (h : FitsFrame (entries ++ [e])) (hkey : e'.key = e.key) (hvalue : e'.value = e.value) :
    FitsFrame (entries ++ [e']) := by
  unfold FitsFrame at *
  rw [encodeAll_concat, List.length_append, encodeLogEntry_length] at h ⊢
  rw [hkey, hvalue]
  exact h

/-- A leader whose log fits into a frame sends its request. -/
theorem FitsFrame.encodes {config : ClusterConfig} {node : RaftNode} {peer : NodeId}
    {req : AppendEntriesRequest} (h : FitsFrame node.log.entries)
    (hreq : node.replicateRequest config peer = some req) :
    ∃ frame, Protocol.encodeClusterRequest (replicationRequest req) = .ok frame := by
  unfold RaftNode.replicateRequest at hreq
  split at hreq
  · cases hreq
  · cases hreq
    refine replicationRequest_ok.mpr ?_
    show FitsFrame (node.log.entriesFrom (node.nextIndex.valueAt peer))
    unfold Log.entriesFrom
    split
    · unfold FitsFrame at *
      rw [encodeAll_nil, List.length_nil]
      omega
    · rw [← List.take_append_drop (node.nextIndex.valueAt peer - 1) node.log.entries] at h
      exact h.of_append.2

/-- One call of `ReplicateToPeer` from `n` to `k` that gets its answer at once. -/
structure Rounded (m : Membership) (n k : NodeId) (s s' : Cluster) : Prop where
  leader : (s'.servers n).raft = (Contact.round (m.configOf n) k s.clock
    ⟨(s.servers n).raft, (s.servers k).raft⟩).1.leader
  follower : (s'.servers k).raft = (Contact.round (m.configOf n) k s.clock
    ⟨(s.servers n).raft, (s.servers k).raft⟩).1.follower
  others : ∀ j, j ≠ n → j ≠ k → (s'.servers j).raft = (s.servers j).raft
  up : ∀ j, (s'.servers j).up = (s.servers j).up
  election : ∀ j, (s'.servers j).election = (s.servers j).election
  writes : ∀ j, (s'.servers j).writes = (s.servers j).writes
  history : s.history <+: s'.history

section Replication

variable {m : Membership} {hash : Bytes → Nat} {Q : List NodeId} {s : Cluster} {n k : NodeId}

theorem step_replicate {req : AppendEntriesRequest} (hn : n ∈ m.ids)
    (hup : (s.servers n).up = true) (hk : k ∈ (m.configOf n).otherPeers)
    (hreq : (s.servers n).raft.replicateRequest (m.configOf n) k = some req)
    (hfits : FitsFrame (s.servers n).raft.log.entries) :
    s.step m (.act n (.replicate k)) =
      some (s.update n
        { s.servers n with replications := (s.servers n).replications ++ [s.rpcs.length] }
        (some (k, .appendEntries req))) := by
  obtain ⟨frame, hframe⟩ := hfits.encodes hreq
  simp [Cluster.step, Cluster.actStep, hn, hup, hk, hreq, hframe]

theorem step_replicateReply {rpc : Nat} {req : AppendEntriesRequest} {sentAt : Nat}
    {resp : AppendEntriesResponse} (hn : n ∈ m.ids) (hrpc : rpc ∈ (s.servers n).replications)
    (hget : s.rpcs[rpc]? = some ⟨n, k, .appendEntries req, sentAt⟩)
    (hreply : s.replyTo rpc = some (.appendEntries resp)) :
    ∃ replications events, s.step m (.act n (.replicateReply rpc)) =
      some (s.update n
        { s.servers n with
          raft := (s.servers n).raft.replicateReply req.term req.entries k resp s.clock
          replications := replications } none events) := by
  simp only [Cluster.step, if_pos hn, Cluster.actStep, if_pos hrpc, Cluster.appendReplyTo, hget,
    hreply]
  exact ⟨_, _, rfl⟩

theorem cluster_round (hr : Run m hash anyStep s) (hn : n ∈ m.ids) (hQ : n ∈ Q) (hkQ : k ∈ Q)
    (hk : k ∈ (m.configOf n).otherPeers) (hup : (s.servers n).up = true)
    (hupk : (s.servers k).up = true) (hl : (s.servers n).raft.state = .kLeader)
    (hfits : FitsFrame (s.servers n).raft.log.entries) :
    ∃ s', Runs.Run (step m) s (among Q) s' ∧ Rounded m n k s s' := by
  have hne := (Membership.mem_otherPeers.mp hk).2
  obtain ⟨req, hreq⟩ : ∃ req, (s.servers n).raft.replicateRequest (m.configOf n) k = some req := by
    unfold RaftNode.replicateRequest
    rw [if_neg (by simp [hl])]
    exact ⟨_, rfl⟩
  obtain ⟨s₁, hrun, X⟩ := exchange_rpc (a := .replicate k) hr hQ
    (step_replicate hn hup hk hreq hfits) hQ hkQ hne hupk
  have hrpc : s.rpcs.length ∈ (s₁.servers n).replications := by
    rw [X.caller]
    exact List.mem_append_right _ List.mem_cons_self
  obtain ⟨replications, events, hstep⟩ := step_replicateReply hn hrpc X.rpc X.reply
  have hround : Contact.round (m.configOf n) k s.clock ⟨(s.servers n).raft, (s.servers k).raft⟩ =
      (⟨(s.servers n).raft.replicateReply req.term req.entries k
          ((s.servers k).raft.handleAppendEntries req).2 s.clock,
        ((s.servers k).raft.handleAppendEntries req).1⟩,
      some (req, ((s.servers k).raft.handleAppendEntries req).2)) := by
    simp only [Contact.round, hreq]
  generalize hs₂ : s₁.update n _ none events = s₂ at hstep
  -- what no step of the round touches
  have hkept : ∀ {α : Type} (f : Server → α),
      (∀ (srv : Server) raft replications, f { srv with raft, replications } = f srv) →
        ∀ j, f (s₂.servers j) = f (s.servers j) := by
    intro α f hf j
    by_cases hjn : j = n
    · subst hjn
      simp only [← hs₂, Cluster.update, Function.update_self, hf, X.caller]
    · by_cases hjk : j = k
      · subst hjk
        simp only [← hs₂, Cluster.update, Function.update_of_ne hjn, X.callee]
        exact hf (s.servers j) _ (s.servers j).replications
      · simp only [← hs₂, Cluster.update, Function.update_of_ne hjn, X.others j hjn hjk]
  refine ⟨s₂, hrun.step (a := .act n (.replicateReply s.rpcs.length)) hQ hstep, ?_, ?_,
    fun j hjn hjk => ?_, hkept (·.up) fun _ _ _ => rfl, hkept (·.election) fun _ _ _ => rfl,
    hkept (·.writes) fun _ _ _ => rfl, ?_⟩
  · rw [hround]
    simp [← hs₂, Cluster.update, X.caller, X.clock]
  · rw [hround]
    simp [← hs₂, Cluster.update, hne, X.callee, RaftNode.handle]
  · simp [← hs₂, Cluster.update, hjn, X.others j hjn hjk]
  · rw [← hs₂, ← X.history]
    exact List.prefix_append _ _

end Replication

/-! ## Winning an election -/

/-- Only node `n` has changed, and not its log. -/
structure OnlyNode (n : NodeId) (s s' : Cluster) : Prop where
  others : ∀ k, k ≠ n → (s'.servers k).raft = (s.servers k).raft
  up : ∀ k, (s'.servers k).up = (s.servers k).up
  log : (s'.servers n).raft.log = (s.servers n).raft.log
  history : s.history <+: s'.history

theorem OnlyNode.refl (n : NodeId) (s : Cluster) : OnlyNode n s s :=
  ⟨fun _ _ => rfl, fun _ => rfl, rfl, List.prefix_refl _⟩

theorem OnlyNode.trans {n : NodeId} {s t u : Cluster} (h : OnlyNode n s t) (h' : OnlyNode n t u) :
    OnlyNode n s u where
  others k hk := (h'.others k hk).trans (h.others k hk)
  up k := (h'.up k).trans (h.up k)
  log := h'.log.trans h.log
  history := h.history.trans h'.history

theorem OnlyNode.update {s : Cluster} {n : NodeId} {srv : Server} (events : List Event)
    (hup : srv.up = (s.servers n).up) (hlog : srv.raft.log = (s.servers n).raft.log) :
    OnlyNode n s (s.update n srv none events) := by
  refine ⟨fun k hk => ?_, ?_, ?_, List.prefix_append _ _⟩
  · simp [Cluster.update, hk]
  · exact forall_update (P := fun k p => p.up = (s.servers k).up) hup (fun _ _ => rfl)
  · simpa [Cluster.update] using hlog

theorem Canvassed.onlyNode {n : NodeId} {T : Nat} {s s' : Cluster} (C : Canvassed [] n T s s') :
    OnlyNode n s s' :=
  ⟨fun k _ => C.others k List.not_mem_nil, C.up, by rw [C.node],
    by rw [C.history]⟩

section Standing

variable {m : Membership} {hash : Bytes → Nat} {Q V : List NodeId} {s : Cluster} {n k : NodeId}

theorem step_startElection (hn : n ∈ m.ids) (hup : (s.servers n).up = true)
    (hidle : (s.servers n).election = none) :
    s.step m (.act n .startElection) =
      some (s.update n
        { s.servers n with
          raft := ((s.servers n).raft.startElection (m.configOf n)).1
          election := some
            { req := ((s.servers n).raft.startElection (m.configOf n)).2
              votes := 1
              todo := (m.configOf n).otherPeers } }) := by
  simp [Cluster.step, Cluster.actStep, hn, hup, hidle]

theorem step_endElection {req : RequestVoteRequest} {votes : Nat} (hn : n ∈ m.ids)
    (he : (s.servers n).election = some ⟨req, votes, [], none⟩) :
    ∃ events, s.step m (.act n .endElection) =
      some (s.update n
        { s.servers n with
          raft := ((s.servers n).raft.finishElection (m.configOf n) req.term votes).1
          election := none } none events) := by
  simp only [Cluster.step, if_pos hn, Cluster.actStep, he]
  exact ⟨_, rfl⟩

theorem finishElection_log (config : ClusterConfig) (node : RaftNode) (term votes : Nat) :
    (node.finishElection config term votes).1.log = node.log ∧
      (node.finishElection config term votes).1.currentTerm = node.currentTerm := by
  unfold RaftNode.finishElection
  split <;> exact ⟨rfl, rfl⟩

/-- A candidacy in progress can be carried to its end without reaching anyone. -/
theorem settle (hr : Run m hash anyStep s) (hn : n ∈ m.ids) (hQ : n ∈ Q) :
    ∃ s', Runs.Run (step m) s (among Q) s' ∧ OnlyNode n s s' ∧ (s'.servers n).election = none ∧
      (s'.servers n).raft.currentTerm = (s.servers n).raft.currentTerm := by
  cases hidle : (s.servers n).election with
  | none => exact ⟨s, .init, .refl n s, hidle, rfl⟩
  | some e =>
    obtain ⟨req, votes, todo, pending⟩ := e
    -- give up the call that is waited for
    obtain ⟨s₁, hrun₁, he₁, A₁, hraft₁⟩ : ∃ s₁, Runs.Run (step m) s (among Q) s₁ ∧
        (s₁.servers n).election = some ⟨req, votes, todo, none⟩ ∧ OnlyNode n s s₁ ∧
          (s₁.servers n).raft = (s.servers n).raft := by
      cases pending with
      | none => exact ⟨s, .init, hidle, .refl n s, rfl⟩
      | some rpc =>
        refine ⟨_, .step (a := .act n .voteLost) .init hQ (step_voteLost hn hidle), ?_,
          .update [] rfl rfl, ?_⟩ <;> simp [Cluster.update]
    obtain ⟨h, _, S⟩ := run_simulated (run_among hr hrun₁)
    have E := S.election n _ he₁
    obtain ⟨s₂, hrun₂, he₂, C⟩ := canvass (V := []) hn hQ (fun _ h => by cases h) todo votes s₁
      (run_among hr hrun₁) he₁ E.todo_nodup (fun h => (E.todo_members n h).2 rfl)
      (fun _ _ h => by cases h)
    obtain ⟨events, hend⟩ := step_endElection hn he₂
    have hfields := finishElection_log (m.configOf n) (s₂.servers n).raft req.term
      (votes + todo.countP (fun k => decide (k ∈ ([] : List NodeId))))
    refine ⟨_, (hrun₁.trans hrun₂).step (a := .act n .endElection) hQ hend,
      (A₁.trans C.onlyNode).trans (.update events rfl hfields.1), ?_, ?_⟩
    · simp [Cluster.update]
    · simp only [Cluster.update, Function.update_self]
      rw [hfields.2, C.node, hraft₁]

/-- **A node stands**: of the other members exactly those in `V` are reached, and they vote. -/
theorem stand (hr : Run m hash anyStep s) (hn : n ∈ m.ids) (hQ : n ∈ Q)
    (hup : (s.servers n).up = true) (hidle : (s.servers n).election = none)
    (hst : (s.servers n).raft.state ≠ .kLeader) (hV : ∀ k ∈ V, k ∈ Q)
    (hvoters : ∀ k ∈ V, k ≠ n → (s.servers k).up = true ∧
      Supports ((s.servers n).raft.startElection (m.configOf n)).2 (s.servers k).raft) :
    ∃ s₁ s', Runs.Run (step m) s (among Q) s' ∧ OnlyNode n s s₁ ∧
      (s'.servers n).raft = ((s.servers n).raft.startElection (m.configOf n)).1 ∧
      (s'.servers n).election = some
        ⟨((s.servers n).raft.startElection (m.configOf n)).2,
          1 + (m.configOf n).otherPeers.countP (fun k => decide (k ∈ V)), [], none⟩ ∧
      Canvassed V n ((s.servers n).raft.currentTerm + 1) s₁ s' := by
  have hstep := step_startElection hn hup hidle
  generalize hs₁ : s.update n _ = s₁ at hstep
  have hrun : Runs.Run (step m) s (among Q) s₁ :=
    .step (a := .act n .startElection) .init ⟨hQ, hst⟩ hstep
  have hraft : (s₁.servers n).raft = ((s.servers n).raft.startElection (m.configOf n)).1 := by
    simp [← hs₁, Cluster.update]
  have A : OnlyNode n s s₁ := by
    rw [← hs₁]
    exact .update [] rfl rfl
  have he₁ : (s₁.servers n).election = some
      ⟨((s.servers n).raft.startElection (m.configOf n)).2, 1, (m.configOf n).otherPeers,
        none⟩ := by
    simp [← hs₁, Cluster.update]
  obtain ⟨s', hrun', he', C⟩ := canvass hn hQ hV _ 1 s₁ (run_among hr hrun) he₁
    (m.otherPeers_nodup n)
    (fun h => (Membership.mem_otherPeers.mp h).2 rfl) (by
      intro k hk hkV
      have hne := (Membership.mem_otherPeers.mp hk).2
      obtain ⟨hupk, hsup⟩ := hvoters k hkV hne
      rw [A.up, A.others k hne, hraft]
      exact ⟨hupk, hsup, rfl, rfl⟩)
  exact ⟨s₁, s', hrun.trans hrun', A, C.node.trans hraft, he', C⟩

/-- An election that nobody hears of raises the term. -/
theorem lose (hr : Run m hash anyStep s) (hsize : 2 ≤ m.ids.length) (hn : n ∈ m.ids) (hQ : n ∈ Q)
    (hup : (s.servers n).up = true) (hidle : (s.servers n).election = none)
    (hst : (s.servers n).raft.state ≠ .kLeader) :
    ∃ s', Runs.Run (step m) s (among Q) s' ∧ OnlyNode n s s' ∧ (s'.servers n).election = none ∧
      (s'.servers n).raft.state ≠ .kLeader ∧
      (s'.servers n).raft.currentTerm = (s.servers n).raft.currentTerm + 1 := by
  obtain ⟨s₁, s₂, hrun, A, hraft, he, C⟩ := stand (V := []) hr hn hQ hup hidle hst
    (fun _ h => by cases h) (fun _ h => by cases h)
  obtain ⟨events, hend⟩ := step_endElection hn he
  have hlost : ((s₂.servers n).raft.finishElection (m.configOf n)
      ((s.servers n).raft.startElection (m.configOf n)).2.term
      (1 + (m.configOf n).otherPeers.countP (fun k => decide (k ∈ ([] : List NodeId))))).1 =
        ((s.servers n).raft.startElection (m.configOf n)).1 := by
    have hvotes : (m.configOf n).otherPeers.countP (fun k => decide (k ∈ ([] : List NodeId))) = 0 :=
      List.countP_eq_zero.mpr fun _ _ => by simp
    have hmajority : (m.configOf n).majority = m.ids.length / 2 + 1 := by
      rw [m.ids_length]
      rfl
    unfold RaftNode.finishElection
    rw [hvotes, if_neg (by omega)]
    exact hraft
  rw [hlost] at hend
  refine ⟨_, hrun.step (a := .act n .endElection) hQ hend,
    (A.trans C.onlyNode).trans (.update events rfl (by rw [hraft])), ?_, ?_, ?_⟩
  · simp [Cluster.update]
  · simp [Cluster.update, RaftNode.startElection, RaftNode.persistState]
  · simp [Cluster.update, RaftNode.startElection, RaftNode.persistState]

/-- The term can be raised as far as it takes. -/
theorem raise_term (hsize : 2 ≤ m.ids.length) (hn : n ∈ m.ids) (hQ : n ∈ Q) :
    ∀ (d : Nat) (s : Cluster), Run m hash anyStep s → (s.servers n).up = true →
      (s.servers n).election = none → (s.servers n).raft.state ≠ .kLeader →
      ∃ s', Runs.Run (step m) s (among Q) s' ∧ OnlyNode n s s' ∧ (s'.servers n).election = none ∧
        (s'.servers n).raft.state ≠ .kLeader ∧
        (s'.servers n).raft.currentTerm = (s.servers n).raft.currentTerm + d
  | 0, s, _, _, hidle, hst => ⟨s, .init, .refl n s, hidle, hst, rfl⟩
  | d + 1, s, hr, hup, hidle, hst => by
    obtain ⟨s₁, hrun₁, A₁, hidle₁, hst₁, hterm₁⟩ := lose hr hsize hn hQ hup hidle hst
    obtain ⟨s₂, hrun₂, A₂, hidle₂, hst₂, hterm₂⟩ := raise_term hsize hn hQ d s₁
      (run_among hr hrun₁) ((A₁.up n).trans hup) hidle₁ hst₁
    refine ⟨s₂, hrun₁.trans hrun₂, A₁.trans A₂, hidle₂, hst₂, ?_⟩
    omega

/-- A leader that hears of a later term steps down. -/
theorem step_down (hr : Run m hash anyStep s) (hn : n ∈ m.ids) (hQ : n ∈ Q) (hkQ : k ∈ Q)
    (hk : k ∈ (m.configOf n).otherPeers) (hup : (s.servers n).up = true)
    (hupk : (s.servers k).up = true) (hl : (s.servers n).raft.state = .kLeader)
    (hfits : FitsFrame (s.servers n).raft.log.entries)
    (hlater : (s.servers n).raft.currentTerm < (s.servers k).raft.currentTerm) :
    ∃ s', Runs.Run (step m) s (among Q) s' ∧ OnlyNode n s s' ∧
      (s'.servers n).election = (s.servers n).election ∧
      (s'.servers n).raft.state ≠ .kLeader := by
  obtain ⟨s', hrun, R⟩ := cluster_round hr hn hQ hkQ hk hup hupk hl hfits
  have hround : (Contact.round (m.configOf n) k s.clock
      ⟨(s.servers n).raft, (s.servers k).raft⟩).1 =
        ⟨(s.servers n).raft.becomeFollower (s.servers k).raft.currentTerm,
          (s.servers k).raft⟩ := by
    simp [Contact.round, RaftNode.replicateRequest, RaftNode.appendEntriesRequest, hl,
      RaftNode.handleAppendEntries, RaftNode.replicateReply, hlater]
  have hleader := R.leader
  have hfollower := R.follower
  rw [hround] at hleader hfollower
  refine ⟨s', hrun, ⟨fun j hj => ?_, R.up, by rw [hleader]; rfl, R.history⟩, R.election n, ?_⟩
  · by_cases hjk : j = k
    · rw [hjk, hfollower]
    · exact R.others j hj hjk
  · rw [hleader]
    simp [RaftNode.becomeFollower, RaftNode.persistState]

/-- Node `n` leads, no node of `Q` is in a later term, and all of `Q` is up. -/
structure Heads (Q : List NodeId) (n : NodeId) (s : Cluster) : Prop where
  leads : (s.servers n).raft.state = .kLeader
  term : ∀ k ∈ Q, (s.servers k).raft.currentTerm ≤ (s.servers n).raft.currentTerm
  up : ∀ k ∈ Q, (s.servers k).up = true

/-- A node with the most up-to-date log of `Q`. -/
structure Foremost (Q : List NodeId) (n : NodeId) (s : Cluster) : Prop where
  mem : n ∈ Q
  log : ∀ k ∈ Q, (s.servers k).raft.log.lastTerm < (s.servers n).raft.log.lastTerm ∨
    ((s.servers k).raft.log.lastTerm = (s.servers n).raft.log.lastTerm ∧
      (s.servers k).raft.log.lastIndex ≤ (s.servers n).raft.log.lastIndex)

theorem exists_foremost (hk : k ∈ Q) (s : Cluster) : ∃ n, Foremost Q n s := by
  obtain ⟨n, hn, hmax⟩ := Q.toFinset.exists_max_image
    (fun j => toLex ((s.servers j).raft.log.lastTerm, (s.servers j).raft.log.lastIndex))
    ⟨k, List.mem_toFinset.mpr hk⟩
  refine ⟨n, List.mem_toFinset.mp hn, fun j hj => ?_⟩
  exact Prod.Lex.toLex_le_toLex.mp (hmax j (List.mem_toFinset.mpr hj))

theorem Foremost.supports (F : Foremost Q n s) (hk : k ∈ Q)
    (hterm : (s.servers k).raft.currentTerm ≤ (s.servers n).raft.currentTerm) :
    Supports ((s.servers n).raft.startElection (m.configOf n)).2 (s.servers k).raft := by
  refine ⟨Nat.lt_succ_of_le hterm, ?_⟩
  unfold RaftNode.challengerUpToDate
  rw [Bool.or_eq_true, Bool.and_eq_true]
  exact (F.log k hk).imp decide_eq_true fun h => ⟨decide_eq_true h.1.symm, decide_eq_true h.2⟩

theorem OnlyNode.foremost {s' : Cluster} (A : OnlyNode n s s') (F : Foremost Q n s) :
    Foremost Q n s' := by
  have hlog : ∀ j, (s'.servers j).raft.log = (s.servers j).raft.log := by
    intro j
    by_cases hj : j = n
    · rw [hj, A.log]
    · rw [A.others j hj]
  refine ⟨F.mem, fun j hj => ?_⟩
  rw [hlog j, hlog n]
  exact F.log j hj

/-- A term that no node of `Q` exceeds. -/
theorem exists_term_bound (hk : k ∈ Q) (s : Cluster) :
    ∃ B, ∀ j ∈ Q, (s.servers j).raft.currentTerm ≤ B := by
  obtain ⟨n, _, hmax⟩ := Q.toFinset.exists_max_image (fun j => (s.servers j).raft.currentTerm)
    ⟨k, List.mem_toFinset.mpr hk⟩
  exact ⟨_, fun j hj => hmax j (List.mem_toFinset.mpr hj)⟩

/-- **The foremost of a majority wins**, once it is idle and its term is the highest. -/
theorem win (hr : Run m hash anyStep s) (hQids : ∀ k ∈ Q, k ∈ m.ids)
    (hmaj : Quorum.majority m.ids.length ≤ m.sizeOf Q) (F : Foremost Q n s)
    (hup : ∀ k ∈ Q, (s.servers k).up = true) (hidle : (s.servers n).election = none)
    (hst : (s.servers n).raft.state ≠ .kLeader)
    (hterm : ∀ k ∈ Q, (s.servers k).raft.currentTerm ≤ (s.servers n).raft.currentTerm) :
    ∃ s', Runs.Run (step m) s (among Q) s' ∧ Heads Q n s' ∧
      (s'.servers n).raft.log = (s.servers n).raft.log ∧ s.history <+: s'.history := by
  have hn := hQids n F.mem
  obtain ⟨s₁, s₂, hrun, A, hraft, he, C⟩ := stand (V := Q) hr hn F.mem (hup n F.mem) hidle hst
    (fun _ h => h) (fun k hk _ => ⟨hup k hk, F.supports hk (hterm k hk)⟩)
  obtain ⟨events, hend⟩ := step_endElection hn he
  have hwon : ((s₂.servers n).raft.finishElection (m.configOf n)
      ((s.servers n).raft.startElection (m.configOf n)).2.term
      (1 + (m.configOf n).otherPeers.countP (fun k => decide (k ∈ Q)))).1 =
        ((s.servers n).raft.startElection (m.configOf n)).1.becomeLeader (m.configOf n) := by
    have hvotes := Membership.sizeOf_eq hn F.mem
    have hmajority : (m.configOf n).majority = Quorum.majority m.ids.length := by
      rw [m.ids_length]
      rfl
    unfold RaftNode.finishElection
    rw [hraft, if_pos ⟨rfl, rfl, by omega⟩]
  rw [hwon] at hend
  generalize hs₃ : s₂.update n _ none events = s₃ at hend
  have hlead : (s₃.servers n).raft =
      ((s.servers n).raft.startElection (m.configOf n)).1.becomeLeader (m.configOf n) := by
    simp [← hs₃, Cluster.update]
  have hother : ∀ k, k ≠ n → s₃.servers k = s₂.servers k := by
    intro k hk
    simp [← hs₃, Cluster.update, hk]
  have hcur : (s₃.servers n).raft.currentTerm = (s.servers n).raft.currentTerm + 1 := by
    rw [hlead]
    rfl
  refine ⟨s₃, hrun.step (a := .act n .endElection) F.mem hend,
    ⟨by rw [hlead]; rfl, fun k hk => ?_, fun k hk => ?_⟩, by rw [hlead]; rfl, ?_⟩
  · by_cases hkn : k = n
    · rw [hkn]
    · have hold := C.term k
      have := hterm k hk
      rw [hcur, hother k hkn]
      rw [A.others k hkn] at hold
      omega
  · by_cases hkn : k = n
    · subst hkn
      simp [← hs₃, Cluster.update, C.up, A.up, hup k hk]
    · rw [hother k hkn, C.up, A.up]
      exact hup k hk
  · rw [← hs₃]
    refine (A.history.trans ?_).trans (List.prefix_append _ _)
    rw [C.history]

/-- **A majority that is up can have a leader**, with the log it has. -/
theorem elect (hr : Run m hash anyStep s) (hsize : 2 ≤ m.ids.length)
    (hQids : ∀ k ∈ Q, k ∈ m.ids) (hup : ∀ k ∈ Q, (s.servers k).up = true)
    (hmaj : Quorum.majority m.ids.length ≤ m.sizeOf Q)
    (hfits : ∀ k ∈ Q, FitsFrame (s.servers k).raft.log.entries) :
    ∃ n ∈ Q, ∃ s', Runs.Run (step m) s (among Q) s' ∧ Heads Q n s' ∧
      (s'.servers n).raft.log = (s.servers n).raft.log ∧ s.history <+: s'.history := by
  obtain ⟨k₀, _, hk₀⟩ : ∃ k ∈ m.ids, decide (k ∈ Q) = true := by
    refine List.countP_pos_iff.mp (Nat.lt_of_lt_of_le ?_ hmaj)
    exact Nat.succ_pos _
  replace hk₀ := of_decide_eq_true hk₀
  obtain ⟨n, F⟩ := exists_foremost hk₀ s
  have hn := hQids n F.mem
  refine ⟨n, F.mem, ?_⟩
  obtain ⟨s₁, hrun₁, A₁, hidle₁, _⟩ := settle hr hn F.mem
  have hr₁ := run_among hr hrun₁
  have hup₁ : ∀ k ∈ Q, (s₁.servers k).up = true := fun k hk => (A₁.up k).trans (hup k hk)
  by_cases hhead : (s₁.servers n).raft.state = .kLeader ∧ ∀ k ∈ Q,
      (s₁.servers k).raft.currentTerm ≤ (s₁.servers n).raft.currentTerm
  · exact ⟨s₁, hrun₁, ⟨hhead.1, hhead.2, hup₁⟩, A₁.log, A₁.history⟩
  · -- a node that does not lead, idle
    obtain ⟨s₂, hrun₂, A₂, hidle₂, hst₂⟩ : ∃ s₂, Runs.Run (step m) s₁ (among Q) s₂ ∧
        OnlyNode n s₁ s₂ ∧ (s₂.servers n).election = none ∧
          (s₂.servers n).raft.state ≠ .kLeader := by
      by_cases hl : (s₁.servers n).raft.state = .kLeader
      · obtain ⟨k, hk, hlater⟩ : ∃ k ∈ Q, (s₁.servers n).raft.currentTerm <
            (s₁.servers k).raft.currentTerm := by
          by_contra hnone
          exact hhead ⟨hl, fun k hk => not_lt.mp fun h => hnone ⟨k, hk, h⟩⟩
        have hne : k ≠ n := by
          rintro rfl
          exact Nat.lt_irrefl _ hlater
        obtain ⟨s₂, hrun₂, A₂, helec, hst⟩ := step_down hr₁ hn F.mem hk
          (Membership.mem_otherPeers.mpr ⟨hQids k hk, hne⟩) (hup₁ n F.mem) (hup₁ k hk) hl
          (by rw [A₁.log]; exact hfits n F.mem) hlater
        exact ⟨s₂, hrun₂, A₂, helec.trans hidle₁, hst⟩
      · exact ⟨s₁, .init, .refl n s₁, hidle₁, hl⟩
    have hr₂ := run_among hr₁ hrun₂
    have hup₂ : ∀ k ∈ Q, (s₂.servers k).up = true := fun k hk => (A₂.up k).trans (hup₁ k hk)
    obtain ⟨B, hB⟩ := exists_term_bound hk₀ s₂
    obtain ⟨s₃, hrun₃, A₃, hidle₃, hst₃, hterm₃⟩ :=
      raise_term hsize hn F.mem B s₂ hr₂ (hup₂ n F.mem) hidle₂ hst₂
    obtain ⟨s₄, hrun₄, H, hlog, hhist⟩ := win (run_among hr₂ hrun₃) hQids hmaj
      (((A₁.trans A₂).trans A₃).foremost F) (fun k hk => (A₃.up k).trans (hup₂ k hk)) hidle₃ hst₃
      (fun k hk => by
        by_cases hkn : k = n
        · rw [hkn]
        · rw [A₃.others k hkn, hterm₃]
          exact Nat.le_add_left_of_le (hB k hk))
    exact ⟨s₄, ((hrun₁.trans hrun₂).trans hrun₃).trans hrun₄, H,
      hlog.trans ((A₁.trans A₂).trans A₃).log, (((A₁.trans A₂).trans A₃).history).trans hhist⟩

end Standing

end NeuralKV
