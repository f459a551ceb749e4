import NeuralKV.Raft.Simulation

/-!
# Each lock scope follows moves of the abstract protocol

For every lock scope that changes a node's term, vote, role or log, the moves of the history that
it performs:

* `becomeFollower` adopts a term, `startElection` stands, a granted vote grants, a won election
  elects, `proposeAppend` appends, a successful `HandleAppendEntries` accepts;
* `restart`, the bookkeeping of replies and everything on the read path leave the history alone.

`Alone m n h h'` says that node `n` alone has moved from `h` to `h'` without changing leaders or
books; it is what the scopes that only follow others do.
-/

set_option autoImplicit false

namespace NeuralKV

open Consensus Quorum

section Steps

variable {m : Membership} {h h' h'' : Hist} {n : NodeId}

/-- Node `n` alone has moved, and neither elected anyone nor appended to a book. -/
structure Alone (m : Membership) (n : NodeId) (h h' : Hist) : Prop where
  steps : HSteps m h h'
  same : ∀ k, k ≠ n → SameAt k h h'
  leader : h'.leader = h.leader
  book : h'.book = h.book

theorem Alone.refl (m : Membership) (n : NodeId) (h : Hist) : Alone m n h h :=
  ⟨.refl, fun k _ => SameAt.refl k h, rfl, rfl⟩

theorem Alone.trans (a : Alone m n h h') (b : Alone m n h' h'') : Alone m n h h'' :=
  ⟨a.steps.trans b.steps, fun k hk => (a.same k hk).trans (b.same k hk),
    b.leader.trans a.leader, b.book.trans a.book⟩

theorem Alone.adopt {T : Nat} (hT : h.cur n < T) : Alone m n h (h.adopt n T) :=
  ⟨.single (.adopt n T hT), fun _ hk => sameAt_adopt hk, rfl, rfl⟩

theorem Alone.stand {T : Nat} (hT : h.cur n < T) : Alone m n h (h.stand n T) :=
  ⟨.single (.stand n T hT), fun _ hk => sameAt_stand hk, rfl, rfl⟩

theorem Alone.grant {c : NodeId} {L : List LogEntry} (hfree : h.vote (h.cur n, n) = none)
    (hstood : h.stood (h.cur n, c) = some L) (hup : UpToDate entryTerm L (h.log n)) :
    Alone m n h (h.grant n c) :=
  ⟨.single (.grant n c L hfree hstood hup), fun _ hk => sameAt_grant hk, rfl, rfl⟩

theorem Alone.accept {c : NodeId} {k : Nat} {L' : List LogEntry}
    (hlead : h.leader (h.cur n) = some c) (hne : c ≠ n) (hk : k ≤ (h.book (h.cur n)).length)
    (hs : Spliced entryTerm (h.log n) ((h.book (h.cur n)).take k) L') :
    Alone m n h (h.accept n k L') :=
  ⟨.single (.accept n c k L' hlead hne hk hs), fun _ hk => sameAt_accept hk, rfl, rfl⟩

end Steps

/-! ## Terms and votes -/

section Node

variable {m : Membership} {h : Hist} {n : NodeId} {r : RaftNode}

theorem NodeSim.fresh (m : Membership) (n : NodeId) (hash : Bytes → Nat) :
    NodeSim m History.init n (RaftNode.fresh hash) where
  cur := rfl
  log := rfl
  contiguous := Log.Contiguous.empty
  persisted := rfl
  voted hv := absurd rfl hv
  unvoted _ := rfl
  candidate hc := by cases hc
  leader hl := by cases hl
  acks_nodup := List.nodup_nil
  acks_peers p hp := by cases hp

/-- A node votes in no term it has not reached. -/
theorem NodeSim.vote_none (I : HInv m h) (S : NodeSim m h n r) {T : Nat}
    (hT : r.currentTerm < T) : h.vote (T, n) = none := by
  cases hv : h.vote (T, n) with
  | none => rfl
  | some p =>
    have := I.vote_le T n p hv
    rw [S.cur] at this
    omega

/-- A node leads no term it has not reached. -/
theorem NodeSim.not_leader (I : HInv m h) (S : NodeSim m h n r) {T : Nat}
    (hT : r.currentTerm < T) : h.leader T ≠ some n := by
  intro hl
  have := (I.elected T n hl).reached
  rw [S.cur] at this
  omega

theorem NodeSim.becomeFollower (I : HInv m h) (S : NodeSim m h n r) {T : Nat}
    (hT : r.currentTerm < T) : NodeSim m (h.adopt n T) n (r.becomeFollower T) where
  cur := by simp [History.adopt, RaftNode.becomeFollower, RaftNode.persistState]
  log := S.log
  contiguous := S.contiguous
  persisted := rfl
  voted hv := absurd rfl hv
  unvoted _ := S.vote_none I hT
  candidate hc := by cases hc
  leader hl := by cases hl
  acks_nodup := List.nodup_nil
  acks_peers p hp := by cases hp

/-- Seeing a newer term adopts it. -/
theorem NodeSim.observe (I : HInv m h) (S : NodeSim m h n r) (T : Nat) :
    ∃ h', Alone m n h h' ∧ NodeSim m h' n (r.observeTerm T) := by
  rcases r.observeTerm_cases T with ⟨_, hr⟩ | ⟨hT, hr⟩
  · exact ⟨h, Alone.refl m n h, by rw [hr]; exact S⟩
  · exact ⟨h.adopt n T, Alone.adopt (by rw [S.cur]; exact hT), by rw [hr]; exact S.becomeFollower I hT⟩

theorem NodeSim.stepDown (I : HInv m h) (S : NodeSim m h n r) {T : Nat} (hT : r.currentTerm < T) :
    ∃ h', Alone m n h h' ∧ NodeSim m h' n (r.becomeFollower T) :=
  ⟨h.adopt n T, Alone.adopt (by rw [S.cur]; exact hT), S.becomeFollower I hT⟩

theorem NodeSim.startElection (I : HInv m h) (S : NodeSim m h n r) (hn : n ≠ 0) :
    NodeSim m (h.stand n (r.currentTerm + 1)) n (r.startElection (m.configOf n)).1 where
  cur := by simp [History.stand, RaftNode.startElection, RaftNode.persistState]
  log := S.log
  contiguous := S.contiguous
  persisted := rfl
  voted _ := ⟨h.log n, by
    simp [History.stand, RaftNode.startElection, RaftNode.persistState, Membership.configOf]⟩
  unvoted hv := absurd hv hn
  candidate _ := by
    refine ⟨?_, S.not_leader I (Nat.lt_succ_self _)⟩
    simp [History.stand, RaftNode.startElection, RaftNode.persistState, S.log]
  leader hl := by cases hl
  acks_nodup := S.acks_nodup
  acks_peers := S.acks_peers

/-- The request of an election tells the log its candidate stands with. -/
theorem NodeSim.startElection_req (S : NodeSim m h n r) :
    VoteReqSim (h.stand n (r.currentTerm + 1)) n (r.startElection (m.configOf n)).2 := by
  refine ⟨rfl, r.log.entries, ?_, ?_, ?_⟩
  · simp [History.stand, RaftNode.startElection, RaftNode.persistState, S.log]
  · exact S.contiguous.lastIndex_eq
  · exact r.log.lastTerm_eq

/-- The check on the candidate's log is the up-to-date order. -/
theorem NodeSim.upToDate (S : NodeSim m h n r) {req : RequestVoteRequest} {L : List LogEntry}
    (hi : req.lastLogIndex = L.length) (ht : req.lastLogTerm = lastTerm entryTerm L)
    (hup : r.challengerUpToDate req = true) : UpToDate entryTerm L (h.log n) := by
  unfold RaftNode.challengerUpToDate at hup
  rw [S.contiguous.lastIndex_eq, r.log.lastTerm_eq, hi, ht] at hup
  rw [S.log]
  rcases Bool.or_eq_true_iff.mp hup with h₁ | h₁
  · exact Or.inl (of_decide_eq_true h₁)
  · obtain ⟨h₂, h₃⟩ := Bool.and_eq_true_iff.mp h₁
    exact Or.inr ⟨of_decide_eq_true h₂, of_decide_eq_true h₃⟩

/-- Persisting a vote that the history has. -/
theorem NodeSim.persistVote (S : NodeSim m h n r) {c : NodeId} {F : List LogEntry} (hc : c ≠ 0)
    (hv : h.vote (r.currentTerm, n) = some (c, F)) :
    NodeSim m h n (RaftNode.persistState { r with votedFor := c }) :=
  { S with
    persisted := rfl
    voted := fun _ => ⟨F, hv⟩
    unvoted := fun h0 => absurd h0 hc
    leader := fun hl => ⟨(S.leader hl).leads, (S.leader hl).keys, (S.leader hl).acked,
      (S.leader hl).next⟩ }

theorem NodeSim.grantVote (S : NodeSim m h n r) {c : NodeId} (hc : c ≠ 0) :
    NodeSim m (h.grant n c) n (RaftNode.persistState { r with votedFor := c }) := by
  have hvote : (h.grant n c).vote (r.currentTerm, n) = some (c, h.log n) := by
    simp [History.grant, S.cur]
  exact
    { S with
      persisted := rfl
      voted := fun _ => ⟨_, hvote⟩
      unvoted := fun h0 => absurd h0 hc
      leader := fun hl => ⟨(S.leader hl).leads, (S.leader hl).keys, (S.leader hl).acked,
        (S.leader hl).next⟩ }

/-- **`HandleRequestVote` adopts the term and grants at most one vote in it.** -/
theorem NodeSim.handleRequestVote (I : HInv m h) (S : NodeSim m h n r) {c : NodeId} (hc : c ≠ 0)
    {req : RequestVoteRequest} (R : VoteReqSim h c req) :
    ∃ h', Alone m n h h' ∧ NodeSim m h' n (r.handleRequestVote req).1 ∧
      ((r.handleRequestVote req).2.voteGranted = true →
        ∃ F, h'.vote (req.term, n) = some (c, F)) := by
  obtain ⟨h₁, A₁, S₁⟩ := S.observe I req.term
  have I₁ := inv_steps I A₁.steps
  have x₁ := extends_steps I A₁.steps
  obtain ⟨rfl, L, hL, hi, ht⟩ := R.frame x₁
  rcases r.handleRequestVote_cases req with hr | ⟨hterm, hvoted, hup, hr⟩
  · rw [hr]
    exact ⟨h₁, A₁, S₁, fun hg => by cases hg⟩
  · rw [hr]
    have hcur : h₁.cur n = req.term := by rw [S₁.cur]; exact hterm
    by_cases h0 : (r.observeTerm req.term).votedFor = 0
    · -- the first vote of this term
      have hfree : h₁.vote (h₁.cur n, n) = none := by rw [S₁.cur]; exact S₁.unvoted h0
      have A₂ : Alone m n h₁ (h₁.grant n req.candidateId) :=
        Alone.grant hfree (by rw [hcur]; exact hL) (S₁.upToDate hi ht hup)
      refine ⟨_, A₁.trans A₂, S₁.grantVote hc, fun _ => ⟨h₁.log n, ?_⟩⟩
      simp [History.grant, hcur]
    · -- the vote was given to this candidate before
      have hsame := hvoted.resolve_left h0
      obtain ⟨F, hF⟩ := S₁.voted h0
      rw [hsame] at hF
      refine ⟨h₁, A₁, S₁.persistVote hc hF, fun _ => ⟨F, ?_⟩⟩
      rw [← hterm]
      exact hF

/-- A vote that a node has seen cannot be taken back by a restart. -/
theorem NodeSim.restart (S : NodeSim m h n r) {r' : RaftNode} (hr : r.restart = some r') :
    NodeSim m h n r' := by
  have R := RaftNode.restart_spec S.contiguous hr
  have hp := R.persisted
  rw [S.persisted] at hp
  have hterm : r'.currentTerm = r.currentTerm := congrArg PersistentState.currentTerm hp
  have hvote : r'.votedFor = r.votedFor := congrArg PersistentState.votedFor hp
  refine ⟨?_, ?_, R.contiguous, ?_, ?_, ?_, ?_, ?_, ?_, ?_⟩
  · rw [hterm]; exact S.cur
  · rw [R.entries]; exact S.log
  · rw [R.stateBin, S.persisted, hterm, hvote]
  · rw [hterm, hvote]; exact S.voted
  · rw [hterm, hvote]; exact S.unvoted
  · intro h₁; rw [R.state] at h₁; cases h₁
  · intro h₁; rw [R.state] at h₁; cases h₁
  · rw [R.lastAckTime]; exact List.nodup_nil
  · intro p hp; rw [R.lastAckTime] at hp; cases hp

/-! ## Elections won -/

theorem Membership.mem_otherPeers {m : Membership} {n p : NodeId} :
    p ∈ (m.configOf n).otherPeers ↔ p ∈ m.ids ∧ p ≠ n := by
  simp [ClusterConfig.otherPeers, Membership.configOf, Membership.ids]

theorem Membership.otherPeers_nodup (m : Membership) (n : NodeId) :
    (m.configOf n).otherPeers.Nodup := m.ids_nodup.filter _

/-- A count begins with the node itself. -/
theorem Counted.self {m : Membership} {n : NodeId} {P : NodeId → Prop} (hn : n ∈ m.ids)
    (hP : P n) : Counted m 1 (m.configOf n).otherPeers P [n] := by
  refine ⟨List.nodup_singleton n, ?_, rfl, ?_, ?_⟩
  · intro v hv
    obtain rfl := List.mem_singleton.mp hv
    exact hn
  · intro v hv hmem
    obtain rfl := List.mem_singleton.mp hv
    exact (Membership.mem_otherPeers.mp hmem).2 rfl
  · intro v hv
    obtain rfl := List.mem_singleton.mp hv
    exact hP

theorem Membership.otherPeers_length (m : Membership) {n : NodeId} (hn : n ∈ m.ids) :
    (m.configOf n).otherPeers.length + 1 = m.ids.length := by
  have herase : (m.configOf n).otherPeers = m.ids.erase n :=
    (m.ids_nodup.erase_eq_filter n).symm
  rw [herase, List.length_erase_of_mem hn]
  have := List.length_pos_of_mem hn
  omega

/-- **Enough counted votes are a quorum of votes.** -/
theorem votersFor_quorum {votes T : Nat} {vs : List NodeId} {P : NodeId → Prop}
    (C : Counted m votes [] P vs) (hP : ∀ v, P v → v ∈ h.votersFor T n)
    (hmaj : (m.configOf n).majority ≤ votes) : h.votersFor T n ∈ m.quorums.quorum := by
  refine ⟨vs, C.nodup, C.members, ?_, fun v hv => hP v (C.holds v hv)⟩
  rw [C.length, m.ids_length]
  exact hmaj

theorem NodeSim.becomeLeader (S : NodeSim m h n r) :
    NodeSim m (h.elect n) n (r.becomeLeader (m.configOf n)) where
  cur := S.cur
  log := S.log
  contiguous := S.contiguous
  persisted := S.persisted
  voted := S.voted
  unvoted := S.unvoted
  candidate hc := by cases hc
  leader _ := by
    refine ⟨?_, ?_, ?_, ?_⟩
    · simp [History.elect, RaftNode.becomeLeader, S.cur]
    · simp [RaftNode.becomeLeader, Function.comp_def]
    · intro p hp
      obtain ⟨id, _, rfl⟩ := List.mem_map.mp hp
      exact Nat.zero_le _
    · intro id hid
      have hv : (r.becomeLeader (m.configOf n)).nextIndex.valueAt id = r.log.lastIndex + 1 :=
        PeerMap.valueAt_map hid
      rw [hv, S.contiguous.lastIndex_eq]
      exact ⟨Nat.succ_pos _, Nat.le_refl _⟩
  acks_nodup := List.nodup_nil
  acks_peers p hp := by cases hp

/-! ## Replication -/

/-- The leader's log is the book of its term. -/
theorem NodeSim.leader_log (I : HInv m h) (S : NodeSim m h n r) (hl : r.state = .kLeader) :
    r.log.entries = h.book r.currentTerm := by
  rw [← S.log]
  exact (I.elected _ n (S.leader hl).leads).log S.cur

theorem NodeSim.propose (I : HInv m h) (S : NodeSim m h n r) (hl : r.state = .kLeader)
    {e : LogEntry} (he : e.index = r.log.entries.length + 1) :
    NodeSim m (h.append n e) n { r with log := r.log.append e } := by
  have happ := Log.append_entries_self S.contiguous he
  have L := S.leader hl
  have x : Extends h (h.append n e) := extends_append I
  refine ⟨S.cur, ?_, Log.append_contiguous S.contiguous e, S.persisted, S.voted, S.unvoted, ?_, ?_,
    S.acks_nodup, S.acks_peers⟩
  · simp only [History.append, Function.update_self]
    rw [happ, S.log]
  · intro hc
    rw [show r.state = .kCandidate from hc] at hl
    cases hl
  · intro _
    refine ⟨L.leads, L.keys, ?_, ?_⟩
    · exact fun p hp => Nat.le_trans (L.acked p hp) (x.ack _ _)
    · intro id hid
      obtain ⟨h₁, h₂⟩ := L.next id hid
      refine ⟨h₁, ?_⟩
      show r.nextIndex.valueAt id ≤ (r.log.append e).entries.length + 1
      rw [happ, List.length_append, List.length_singleton]
      omega

/-- **The receiver's log after an accepted request**: the sender's book spliced into it. -/
theorem NodeSim.appendLoop_spliced (I : HInv m h) (S : NodeSim m h n r)
    (books : ∀ T, Numbered (h.book T)) {c : NodeId} {req : AppendEntriesRequest}
    (R : AppendReqSim h c n req) (hprev : (r.acceptLeader req).prevMismatch req = false) :
    Spliced entryTerm r.log.entries
        ((h.book req.term).take (req.prevLogIndex + req.entries.length))
        (RaftNode.appendLoop r.log req.prevLogIndex req.entries).entries ∧
      (RaftNode.appendLoop r.log req.prevLogIndex req.entries).Contiguous := by
  have hrootL : Rooted entryTerm h.book r.log.entries := by rw [← S.log]; exact I.rooted_log n
  refine RaftNode.appendLoop_spliced S.contiguous (books req.term)
    (hrootL.logsMatch (I.rooted_book req.term)) ?_ R.entries
  intro h0
  obtain ⟨a, ha, hat⟩ := (RaftNode.hasPrev_of_accepted S.contiguous hprev).resolve_left (by omega)
  obtain ⟨b, hb, hbt⟩ := R.prev_term h0
  exact ⟨a, b, ha, hb, hat.trans hbt.symm⟩

/-- The head of `HandleAppendEntries` adopts the leader's term. -/
theorem NodeSim.acceptLeader (I : HInv m h) (S : NodeSim m h n r) (req : AppendEntriesRequest) :
    ∃ h', Alone m n h h' ∧ NodeSim m h' n (r.acceptLeader req) ∧
      (r.acceptLeader req).state ≠ .kCandidate ∧ h'.log n = h.log n := by
  rcases r.acceptLeader_cases req with ⟨_, hst, hr⟩ | ⟨_, hst, hr⟩ | ⟨hT, hr⟩ <;> rw [hr]
  · exact ⟨h, Alone.refl m n h, S.congr rfl rfl rfl rfl rfl rfl rfl rfl, hst, rfl⟩
  · refine ⟨h, Alone.refl m n h, ?_, by simp, rfl⟩
    exact
      { S with
        candidate := fun hc => by cases hc
        leader := fun hl => by cases hl }
  · refine ⟨h.adopt n req.term, Alone.adopt (by rw [S.cur]; exact hT), ?_, ?_, rfl⟩
    · exact (S.becomeFollower I hT).congr rfl rfl rfl rfl rfl rfl rfl rfl
    · simp [RaftNode.becomeFollower, RaftNode.persistState]

theorem NodeSim.accept (S : NodeSim m h n r) (hcand : r.state ≠ .kCandidate)
    (hlead : h.leader r.currentTerm ≠ some n) {log : Log} (hc : log.Contiguous) {k : Nat} :
    NodeSim m (h.accept n k log.entries) n { r with log := log } := by
  refine ⟨S.cur, ?_, hc, S.persisted, S.voted, S.unvoted, ?_, ?_, S.acks_nodup, S.acks_peers⟩
  · simp [History.accept]
  · exact fun h₁ => absurd h₁ hcand
  · exact fun h₁ => absurd (S.leader h₁).leads hlead

/-- Moving the commit index and applying touch nothing the history records. -/
theorem NodeSim.applied (S : NodeSim m h n r) (c : Nat) (st : Storage) :
    NodeSim m h n { r with commitIndex := c, storage := st } :=
  S.congr rfl rfl rfl rfl rfl rfl rfl rfl

theorem NodeSim.followCommit (S : NodeSim m h n r) (c : Nat) : NodeSim m h n (r.followCommit c) := by
  rcases r.followCommit_cases c with ⟨_, hr⟩ | ⟨_, hr⟩ <;> rw [hr]
  · exact S
  · exact S.applied _ _

theorem NodeSim.advanceCommitIndex (S : NodeSim m h n r) : NodeSim m h n r.advanceCommitIndex := by
  rcases r.advanceCommitIndex_cases with hr | ⟨c, e, _, _, _, _, hr⟩ <;> rw [hr]
  · exact S
  · exact S.applied _ _

/-- **`HandleAppendEntries` accepts a piece of the leader's book.** -/
theorem NodeSim.handleAppendEntries (I : HInv m h) (S : NodeSim m h n r)
    (books : ∀ T, Numbered (h.book T)) {c : NodeId} {req : AppendEntriesRequest}
    (R : AppendReqSim h c n req) :
    ∃ h', Alone m n h h' ∧ NodeSim m h' n (r.handleAppendEntries req).1 ∧
      ((r.handleAppendEntries req).2.success = true →
        req.prevLogIndex + req.entries.length ≤ h'.ack (n, req.term) ∧ h'.cur n = req.term) := by
  rcases r.handleAppendEntries_cases req with ⟨_, hr⟩ | ⟨_, hr⟩ | ⟨hle, hprev, hr⟩
  · rw [hr]
    exact ⟨h, Alone.refl m n h, S, fun hs => by cases hs⟩
  · rw [hr]
    obtain ⟨h₁, A₁, S₁, _, _⟩ := S.acceptLeader I req
    exact ⟨h₁, A₁, S₁, fun hs => by cases hs⟩
  · obtain ⟨hsplice, hcont⟩ := S.appendLoop_spliced I books R hprev
    obtain ⟨h₁, A₁, S₁, hcand, hlog⟩ := S.acceptLeader I req
    have hterm := RaftNode.acceptLeader_term hle
    have hcur : h₁.cur n = req.term := by rw [S₁.cur]; exact hterm
    have hlead : h₁.leader req.term = some c := by rw [A₁.leader]; exact R.leads
    have A₂ : Alone m n h₁ (h₁.accept n (req.prevLogIndex + req.entries.length)
        (RaftNode.appendLoop r.log req.prevLogIndex req.entries).entries) := by
      refine Alone.accept (by rw [hcur]; exact hlead) R.ne ?_ ?_
      · rw [hcur, A₁.book]; exact R.take_eq
      · rw [hcur, A₁.book, hlog, S.log]; exact hsplice
    rw [hr]
    refine ⟨_, A₁.trans A₂, ?_, fun _ => ⟨?_, hcur⟩⟩
    · refine (S₁.accept hcand ?_ hcont).followCommit _
      rw [hterm, hlead]
      exact fun he => R.ne (Option.some.inj he)
    · simp only [History.accept, hcur, Function.update_self]
      exact Nat.le_max_right _ _

/-- What a leader sends: the entry before `next_index_` and a piece of its book after it. -/
theorem NodeSim.appendEntriesRequest (I : HInv m h) (S : NodeSim m h n r) (hl : r.state = .kLeader)
    {peer : NodeId} (hpeer : peer ∈ (m.configOf n).otherPeers) {entries : List LogEntry}
    (hes : (r.log.entries.drop (r.nextIndex.valueAt peer - 1)).take entries.length = entries) :
    AppendReqSim h n peer
      (RaftNode.appendEntriesRequest (m.configOf n) r r.currentTerm peer entries) := by
  obtain ⟨hpos, hle⟩ := (S.leader hl).next peer hpeer
  have hlog := S.leader_log I hl
  refine ⟨(S.leader hl).leads, (Membership.mem_otherPeers.mp hpeer).2.symm, ?_, ?_, ?_⟩
  · show r.nextIndex.valueAt peer - 1 ≤ (h.book r.currentTerm).length
    rw [← hlog]; omega
  · intro h0
    replace h0 : 0 < r.nextIndex.valueAt peer - 1 := h0
    have hlt : r.nextIndex.valueAt peer - 1 - 1 < r.log.entries.length := by omega
    refine ⟨r.log.entries.get ⟨_, hlt⟩, ?_, ?_⟩
    · show (h.book r.currentTerm)[r.nextIndex.valueAt peer - 1 - 1]? = _
      rw [← hlog]
      exact List.getElem?_eq_getElem hlt
    · show _ = ((r.log.get (r.nextIndex.valueAt peer - 1)).map (·.term)).getD 0
      rw [S.contiguous.get_eq h0, List.getElem?_eq_getElem hlt]
      rfl
  · show ((h.book r.currentTerm).drop (r.nextIndex.valueAt peer - 1)).take _ = _
    rw [← hlog]
    exact hes

theorem NodeSim.replicateRequest (I : HInv m h) (S : NodeSim m h n r) {peer : NodeId}
    (hpeer : peer ∈ (m.configOf n).otherPeers) {req : AppendEntriesRequest}
    (hreq : r.replicateRequest (m.configOf n) peer = some req) : AppendReqSim h n peer req := by
  unfold RaftNode.replicateRequest at hreq
  split at hreq
  · cases hreq
  · rename_i hl
    cases hreq
    have hl : r.state = .kLeader := by simpa using hl
    obtain ⟨hpos, _⟩ := (S.leader hl).next peer hpeer
    refine S.appendEntriesRequest I hl hpeer ?_
    unfold Log.entriesFrom
    rw [if_neg (by omega)]
    exact List.take_length

theorem NodeSim.confirmRequest (I : HInv m h) (S : NodeSim m h n r) {peer : NodeId} {term : Nat}
    (hpeer : peer ∈ (m.configOf n).otherPeers) {req : AppendEntriesRequest}
    (hreq : r.confirmRequest (m.configOf n) term peer = some req) :
    AppendReqSim h n peer req ∧ req.term = term := by
  unfold RaftNode.confirmRequest at hreq
  split at hreq
  · cases hreq
  · rename_i hlive
    cases hreq
    obtain ⟨hl, rfl⟩ := RaftNode.leader_of_live hlive
    exact ⟨S.appendEntriesRequest I hl hpeer rfl, rfl⟩

/-- Noting the time of an ack. -/
theorem NodeSim.putAck (S : NodeSim m h n r) {peer : NodeId}
    (hpeer : peer ∈ (m.configOf n).otherPeers) (now : Nat) :
    NodeSim m h n { r with lastAckTime := r.lastAckTime.put peer now } := by
  refine
    { S with
      candidate := S.candidate
      leader := fun hl => ⟨(S.leader hl).leads, (S.leader hl).keys, (S.leader hl).acked,
        (S.leader hl).next⟩
      acks_nodup := PeerMap.keys_put_nodup S.acks_nodup
      acks_peers := ?_ }
  intro p hp
  rcases PeerMap.mem_put hp with rfl | hp
  · exact hpeer
  · exact S.acks_peers p hp

/-- The last entry of a request carries the index the request reaches. -/
theorem AppendReqSim.last_index {caller callee : NodeId} {req : AppendEntriesRequest}
    (R : AppendReqSim h caller callee req) (hbook : Numbered (h.book req.term)) {last : LogEntry}
    (hlast : req.entries.getLast? = some last) :
    last.index = req.prevLogIndex + req.entries.length := by
  rw [List.getLast?_eq_getElem?] at hlast
  have hlt := (List.getElem?_eq_some_iff.mp hlast).1
  have := NumberedFrom.of_segment hbook R.entries _ last hlast
  omega

/-- Recording a successful reply keeps `match_index_` within what is acknowledged. -/
theorem NodeSim.recordAck (I : HInv m h) (S : NodeSim m h n r) (hl : r.state = .kLeader)
    (books : ∀ T, Numbered (h.book T)) {req : AppendEntriesRequest} {peer : NodeId}
    (hpeer : peer ∈ (m.configOf n).otherPeers) (R : AppendReqSim h n peer req)
    (hterm : r.currentTerm = req.term)
    (hack : req.prevLogIndex + req.entries.length ≤ h.ack (peer, req.term)) (now : Nat) :
    NodeSim m h n (r.recordAck req.entries peer now) := by
  have S' := S.putAck hpeer now
  unfold RaftNode.recordAck
  split
  · exact S'
  · rename_i last hlast
    have L := S.leader hl
    have hidx := R.last_index (books req.term) hlast
    have hle := R.take_eq
    rw [← hterm, ← S.leader_log I hl] at hle
    refine
      { S' with
        candidate := S.candidate
        leader := fun _ => ⟨L.leads, ?_, ?_, ?_⟩ }
    · show (PeerMap.put peer last.index r.matchIndex).map (·.1) = _
      rw [PeerMap.keys_put (by rw [L.keys]; exact hpeer)]
      exact L.keys
    · intro p hp
      rcases PeerMap.mem_put hp with rfl | hp
      · show last.index ≤ h.ack (peer, r.currentTerm)
        rw [hidx, hterm]
        exact hack
      · exact L.acked p hp
    · intro id hid
      show 0 < (PeerMap.put peer (last.index + 1) r.nextIndex).valueAt id ∧ _
      by_cases hid' : id = peer
      · subst hid'
        rw [PeerMap.valueAt_put_self]
        exact ⟨Nat.succ_pos _, by show last.index + 1 ≤ r.log.entries.length + 1; omega⟩
      · rw [PeerMap.valueAt_put_of_ne hid']
        exact L.next id hid

/-- A rejected request moves `next_index_` back by one. -/
theorem NodeSim.backOff (S : NodeSim m h n r) (hl : r.state = .kLeader) {peer : NodeId}
    (hnext : 1 < r.nextIndex.valueAt peer) (hpeer : peer ∈ (m.configOf n).otherPeers) :
    NodeSim m h n
      { r with nextIndex := r.nextIndex.put peer (r.nextIndex.valueAt peer - 1) } := by
  have L := S.leader hl
  refine
    { S with
      candidate := S.candidate
      leader := fun _ => ⟨L.leads, L.keys, L.acked, ?_⟩ }
  intro id hid
  show 0 < (PeerMap.put peer (r.nextIndex.valueAt peer - 1) r.nextIndex).valueAt id ∧ _
  by_cases hid' : id = peer
  · subst hid'
    have := (L.next id hid).2
    rw [PeerMap.valueAt_put_self]
    exact ⟨by omega, by show _ ≤ r.log.entries.length + 1; omega⟩
  · rw [PeerMap.valueAt_put_of_ne hid']
    exact L.next id hid

/-- **What `AdvanceCommitIndexLocked` commits is committed in the history.** -/
theorem NodeSim.committed (I : HInv m h) (S : NodeSim m h n r) (hn : n ∈ m.ids)
    (hl : r.state = .kLeader) (hadv : r.advanceCommitIndex.commitIndex ≠ r.commitIndex) :
    Committed m.quorums entryTerm h r.currentTerm r.advanceCommitIndex.commitIndex ∧
      r.advanceCommitIndex.commitIndex ≤ r.log.entries.length := by
  rcases r.advanceCommitIndex_cases with hr | ⟨c, e, hlt, hget, hterm, hcount, hr⟩
  · rw [hr] at hadv
    exact absurd rfl hadv
  · rw [hr]
    show Committed m.quorums entryTerm h r.currentTerm c ∧ c ≤ r.log.entries.length
    have L := S.leader hl
    have hlog := S.leader_log I hl
    rw [S.contiguous.get_eq (by omega)] at hget
    have hclt := (List.getElem?_eq_some_iff.mp hget).1
    have hself : c ≤ h.ack (n, r.currentTerm) := by
      rw [(I.elected _ n L.leads).ack, ← hlog]; omega
    refine ⟨⟨⟨e, by rw [← hlog]; exact hget, hterm⟩, by omega, ?_⟩, by omega⟩
    -- the node itself and the peers whose `match_index_` reaches `c`
    refine ⟨n :: ((r.matchIndex.filter fun p => decide (c ≤ p.2)).map (·.1)), ?_, ?_, ?_, ?_⟩
    · have hsub : ((r.matchIndex.filter fun p => decide (c ≤ p.2)).map (·.1)).Sublist
          (m.configOf n).otherPeers := by
        rw [← L.keys]
        exact List.filter_sublist.map _
      refine List.nodup_cons.mpr ⟨fun hmem => ?_, (m.otherPeers_nodup n).sublist hsub⟩
      exact (Membership.mem_otherPeers.mp (hsub.subset hmem)).2 rfl
    · intro v hv
      rcases List.mem_cons.mp hv with rfl | hv
      · exact hn
      · obtain ⟨p, hp, rfl⟩ := List.mem_map.mp hv
        have hkey : p.1 ∈ r.matchIndex.map (·.1) :=
          List.mem_map_of_mem (List.mem_of_mem_filter hp)
        rw [L.keys] at hkey
        exact (Membership.mem_otherPeers.mp hkey).1
    · have hlen : r.matchIndex.length + 1 = m.ids.length := by
        rw [← m.otherPeers_length hn, ← L.keys, List.length_map]
      rw [hlen, List.countP_cons_of_pos (by
        rw [S.contiguous.lastIndex_eq]; exact decide_eq_true (by omega)), List.countP_map] at hcount
      rw [List.length_cons, List.length_map, ← List.countP_eq_length_filter]
      exact hcount
    · intro v hv
      rcases List.mem_cons.mp hv with rfl | hv
      · exact hself
      · obtain ⟨p, hp, rfl⟩ := List.mem_map.mp hv
        obtain ⟨hmem, hge⟩ := List.mem_filter.mp hp
        exact Nat.le_trans (of_decide_eq_true hge) (L.acked p hmem)

/-- **A reply to `ReplicateToPeer`** never moves the history except to adopt a newer term. -/
theorem NodeSim.replicateReply (I : HInv m h) (S : NodeSim m h n r)
    (books : ∀ T, Numbered (h.book T)) {req : AppendEntriesRequest} {peer : NodeId}
    (hpeer : peer ∈ (m.configOf n).otherPeers) (R : AppendReqSim h n peer req)
    {resp : AppendEntriesResponse}
    (hack : resp.success = true →
      req.prevLogIndex + req.entries.length ≤ h.ack (peer, req.term)) (now : Nat) :
    ∃ h', Alone m n h h' ∧ NodeSim m h' n (r.replicateReply req.term req.entries peer resp now) := by
  rcases r.replicateReply_cases req.term req.entries peer resp now with
    hr | ⟨hT, hr⟩ | ⟨hl, hterm, hsucc, hr⟩ | ⟨hl, hnext, _, hr⟩ <;> rw [hr]
  · exact ⟨h, Alone.refl m n h, S⟩
  · exact S.stepDown I hT
  · exact ⟨h, Alone.refl m n h,
      (S.recordAck I hl books hpeer R hterm (hack hsucc) now).advanceCommitIndex⟩
  · exact ⟨h, Alone.refl m n h, S.backOff hl hnext hpeer⟩

/-- When a reply moves the commit index, the new one is committed in the leader's own term. -/
theorem NodeSim.replicateReply_committed (I : HInv m h) (S : NodeSim m h n r) (hn : n ∈ m.ids)
    (books : ∀ T, Numbered (h.book T)) {req : AppendEntriesRequest} {peer : NodeId}
    (hpeer : peer ∈ (m.configOf n).otherPeers) (R : AppendReqSim h n peer req)
    {resp : AppendEntriesResponse}
    (hack : resp.success = true →
      req.prevLogIndex + req.entries.length ≤ h.ack (peer, req.term)) {now : Nat}
    (hadv : (r.replicateReply req.term req.entries peer resp now).commitIndex ≠ r.commitIndex) :
    r.state = .kLeader ∧
      Committed m.quorums entryTerm h r.currentTerm
        (r.replicateReply req.term req.entries peer resp now).commitIndex ∧
      (r.replicateReply req.term req.entries peer resp now).commitIndex ≤ r.log.entries.length := by
  rcases r.replicateReply_cases req.term req.entries peer resp now with
    hr | ⟨hT, hr⟩ | ⟨hl, hterm, hsucc, hr⟩ | ⟨hl, hnext, _, hr⟩ <;> rw [hr] at hadv ⊢
  · exact absurd rfl hadv
  · exact absurd rfl hadv
  · obtain ⟨h₁, h₂, h₃, h₄, _⟩ := r.recordAck_fields req.entries peer now
    have S₁ := S.recordAck I hl books hpeer R hterm (hack hsucc) now
    rw [← h₁] at hadv
    obtain ⟨hC, hle⟩ := S₁.committed I hn (h₄.trans hl) hadv
    rw [h₂] at hC
    rw [h₃] at hle
    exact ⟨hl, hC, hle⟩
  · exact absurd rfl hadv

theorem NodeSim.voteReply (I : HInv m h) (S : NodeSim m h n r) (term votes : Nat)
    (resp : RequestVoteResponse) :
    ∃ h', Alone m n h h' ∧ NodeSim m h' n (r.voteReply term votes resp).1 := by
  rcases r.voteReply_cases term votes resp with hr | ⟨hT, hr⟩ | ⟨_, hr⟩ | hr <;> rw [hr]
  · exact ⟨h, Alone.refl m n h, S⟩
  · exact S.stepDown I hT
  · exact ⟨h, Alone.refl m n h, S⟩
  · exact ⟨h, Alone.refl m n h, S⟩

theorem NodeSim.confirmReply (I : HInv m h) (S : NodeSim m h n r) (term acks : Nat) {peer : NodeId}
    (hpeer : peer ∈ (m.configOf n).otherPeers) (resp : AppendEntriesResponse) (now : Nat) :
    ∃ h', Alone m n h h' ∧ NodeSim m h' n (r.confirmReply term acks peer resp now).1 := by
  rcases r.confirmReply_cases term acks peer resp now with
    ⟨hT, hr⟩ | hr | ⟨_, _, _, hr⟩ | ⟨_, _, hr⟩ <;> rw [hr]
  · exact S.stepDown I hT
  · exact ⟨h, Alone.refl m n h, S⟩
  · exact ⟨h, Alone.refl m n h, S.putAck hpeer now⟩
  · exact ⟨h, Alone.refl m n h, S⟩

end Node

end NeuralKV
