import NeuralKV.Raft.Commit
import NeuralKV.Raft.Safety

/-!
# State machine safety

Do two nodes ever apply different entries at the same index?  `HandleAppendEntries` sets
`commit_index_` to `min(leader_commit, LastIndex())` of its own log.  The request of a read
confirmation carries no entries, and its `prev_log_index` may lie below `leader_commit`; a
follower then commits a suffix that nobody has compared with the leader's log.

* `unverified_suffix_applied` — a crash-free run of three nodes in which two of them apply
  different entries at index 1.
* `state_machine_safety` — the property holds in every crash-free run in which no accepted
  request moves the commit index past the part of the log it verifies (`commitVerified`).

The invariant `Settled` says that the committed part of a log is a prefix of what some leader has
committed (`Certified`), and that exactly this part has been applied.
-/

set_option autoImplicit false

namespace NeuralKV

open Consensus Cluster
open Runs (anyStep exists_run)

/-! ## The condition -/

/-- The request is refused, does not move `commit_index_`, or moves it at most to the last entry
that the request itself verifies. -/
def commitVerified (node : RaftNode) (req : AppendEntriesRequest) : Prop :=
  req.term < node.currentTerm ∨ node.prevMismatch req = true ∨
    req.leaderCommit ≤ node.commitIndex ∨
    min req.leaderCommit node.log.lastIndex ≤ req.prevLogIndex + req.entries.length

instance (node : RaftNode) (req : AppendEntriesRequest) : Decidable (commitVerified node req) := by
  unfold commitVerified
  infer_instance

/-- No crash, and every append request that is delivered is `commitVerified`. -/
def verifiedCommits (s : Cluster) : Action → Prop
  | .deliver rpc =>
    match s.rpcs[rpc]? with
    | some ⟨_, callee, .appendEntries req, _⟩ => commitVerified (s.servers callee).raft req
    | _ => True
  | a => crashFree s a

instance (s : Cluster) (a : Action) : Decidable (verifiedCommits s a) := by
  unfold verifiedCommits
  split
  · split <;> infer_instance
  · infer_instance

/-- Node `n` is not started again, and every append request that it is delivered is
`commitVerified`. -/
def verifiedAt (n : NodeId) (s : Cluster) : Action → Prop
  | .deliver rpc =>
    match s.rpcs[rpc]? with
    | some ⟨_, callee, .appendEntries req, _⟩ =>
      callee = n → commitVerified (s.servers n).raft req
    | _ => True
  | a => a ≠ .act n .restart

instance (n : NodeId) (s : Cluster) (a : Action) : Decidable (verifiedAt n s a) := by
  unfold verifiedAt
  split
  · split <;> infer_instance
  · infer_instance

theorem verifiedAt.ne_restart {n : NodeId} {s : Cluster} {a : Action} (h : verifiedAt n s a) :
    a ≠ .act n .restart := by
  rintro rfl
  exact h rfl

theorem verifiedAt_deliver {n : NodeId} {s : Cluster} {rpc : Nat} {r : Rpc}
    {req : AppendEntriesRequest} (h : verifiedAt n s (.deliver rpc)) (hr : s.rpcs[rpc]? = some r)
    (hreq : r.req = .appendEntries req) (hn : r.callee = n) :
    commitVerified (s.servers n).raft req := by
  obtain ⟨caller, callee, req', sentAt⟩ := r
  cases hreq
  simp only [verifiedAt, hr] at h
  exact h hn

theorem verifiedCommits.node {s : Cluster} {a : Action} (h : verifiedCommits s a) (n : NodeId) :
    verifiedAt n s a := by
  cases a with
  | deliver rpc =>
    cases hr : s.rpcs[rpc]? with
    | none => simp only [verifiedAt, hr]
    | some r =>
      obtain ⟨caller, callee, req, sentAt⟩ := r
      cases req with
      | requestVote req => simp only [verifiedAt, hr]
      | appendEntries req =>
        simp only [verifiedCommits, hr] at h
        simp only [verifiedAt, hr]
        rintro rfl
        exact h
  | tick d => nofun
  | act k a =>
    rintro ⟨⟩
    exact h

/-! ## The invariant -/

/-- `P` is part of what some leader of a term up to `T` has committed. -/
def Certified (hist : List Event) (T : Nat) (P : List LogEntry) : Prop :=
  P = [] ∨ ∃ n T' N L, Event.advanced n T' N L ∈ hist ∧ T' ≤ T ∧ P <+: L.take N

theorem Certified.mono {hist evs : List Event} {T T' : Nat} {P : List LogEntry}
    (h : Certified hist T P) (hT : T ≤ T') : Certified (hist ++ evs) T' P := by
  rcases h with h | ⟨n, U, N, L, hmem, hU, hP⟩
  · exact Or.inl h
  · exact Or.inr ⟨n, U, N, L, List.mem_append_left _ hmem, Nat.le_trans hU hT, hP⟩

/-- The log of a node whose committed part is certified and applied. -/
structure Settled (hist : List Event) (r : RaftNode) : Prop where
  commit_le : r.commitIndex ≤ r.log.entries.length
  certified : Certified hist r.currentTerm (r.log.entries.take r.commitIndex)
  applied : r.storage.applied = r.log.entries.take r.commitIndex
  lastApplied : r.storage.lastAppliedIndex = r.commitIndex

section Preservation

variable {m : Membership} {h : Hist} {s s' : Cluster} {a : Action} {n : NodeId} {r' : RaftNode}
  {evs : List Event}

/-- A commitment is a prefix of the book of its own and every later leader. -/
theorem Sim.advanced_book (I : HInv m h) (S : Sim m h s) {c : NodeId} {T N U : Nat}
    {L : List LogEntry} (hmem : Event.advanced n T N L ∈ s.history) (hTU : T ≤ U)
    (hl : h.leader U = some c) : L.take N <+: h.book U ∧ N ≤ L.length := by
  obtain ⟨_, hC, hL, hN⟩ := S.history.events _ hmem
  rw [← take_of_isPrefix hL hN]
  exact ⟨committed_prefix_book I hC hTU hl, hN⟩

theorem Certified.prefix_book (I : HInv m h) (S : Sim m h s) {T U : Nat} {P : List LogEntry}
    {c : NodeId} (hP : Certified s.history T P) (hTU : T ≤ U) (hl : h.leader U = some c) :
    P <+: h.book U := by
  rcases hP with rfl | ⟨k, T', N, L, hmem, hT', hP⟩
  · exact List.nil_prefix
  · exact hP.trans (S.advanced_book I hmem (Nat.le_trans hT' hTU) hl).1

/-- **Any two certified lists are comparable.** -/
theorem Certified.comparable (I : HInv m h) (S : Sim m h s) {T U : Nat} {P Q : List LogEntry}
    (hP : Certified s.history T P) (hQ : Certified s.history U Q) : P <+: Q ∨ Q <+: P := by
  rcases hP with rfl | ⟨k, T', N, L, hmem, _, hP⟩
  · exact Or.inl List.nil_prefix
  · rcases hQ with rfl | ⟨k', U', N', L', hmem', _, hQ⟩
    · exact Or.inr List.nil_prefix
    · -- both are prefixes of the book of the later of the two leaders
      rcases Nat.le_total T' U' with hle | hle
      · have hl := (S.history.events _ hmem').1
        exact List.prefix_or_prefix_of_prefix (hP.trans (S.advanced_book I hmem hle hl).1)
          (hQ.trans (S.advanced_book I hmem' (Nat.le_refl _) hl).1)
      · have hl := (S.history.events _ hmem).1
        exact List.prefix_or_prefix_of_prefix
          (hP.trans (S.advanced_book I hmem (Nat.le_refl _) hl).1)
          (hQ.trans (S.advanced_book I hmem' hle hl).1)

/-- The commit index of an accepted request stays within what the request verifies. -/
theorem verified_take {L B L' : List LogEntry} {k lc : Nat} (hs : Spliced entryTerm L (B.take k) L')
    (hk : k ≤ B.length) (hv : min lc L.length ≤ k) : L'.take (min lc L'.length) <+: B := by
  rcases hs with ⟨hpre, rfl⟩ | ⟨rfl, _⟩
  · have hle : min lc L'.length ≤ (B.take k).length := by rw [List.length_take]; omega
    rw [take_of_isPrefix hpre hle]
    exact (List.take_prefix _ _).trans (List.take_prefix _ _)
  · exact (List.take_prefix _ _).trans (List.take_prefix _ _)

theorem Settled.propose {hist evs : List Event} {r : RaftNode} (S : Settled hist r)
    (hc : r.log.Contiguous) (e : LogEntry) :
    Settled (hist ++ evs) { r with log := r.log.append e } := by
  have hentries := Log.append_entries r.log hc e
  have htake : (r.log.append e).entries.take r.commitIndex = r.log.entries.take r.commitIndex := by
    rw [hentries, List.take_append_of_le_length S.commit_le]
  refine ⟨?_, ?_, S.applied.trans htake.symm, S.lastApplied⟩
  · show r.commitIndex ≤ (r.log.append e).entries.length
    rw [hentries, List.length_append]
    exact Nat.le_add_right_of_le S.commit_le
  · show Certified _ _ ((r.log.append e).entries.take r.commitIndex)
    rw [htake]
    exact S.certified.mono (Nat.le_refl _)

/-- Applying up to a new commit index. -/
theorem applied_take {P L : List LogEntry} {c c' : Nat} (hP : P = L.take c) (hc : c ≤ c') :
    P ++ (L.drop c).take (c' - c) = L.take c' := by
  rw [hP, ← List.take_add, Nat.add_sub_cancel' hc]

/-- An accepted request leaves the committed part of the log in place. -/
theorem Settled.keeps_committed (I : HInv m h) (S : Sim m h s)
    (Z : Settled s.history (s.servers n).raft) {req : AppendEntriesRequest} {L' : List LogEntry}
    (hle : (s.servers n).raft.currentTerm ≤ req.term) {c : NodeId} {k : Nat}
    (hlead : h.leader req.term = some c)
    (hs : Spliced entryTerm (s.servers n).raft.log.entries ((h.book req.term).take k) L') :
    (s.servers n).raft.commitIndex ≤ L'.length ∧
      (s.servers n).raft.log.entries.take (s.servers n).raft.commitIndex =
        L'.take (s.servers n).raft.commitIndex := by
  have hkeep : (s.servers n).raft.log.entries.take (s.servers n).raft.commitIndex <+: L' :=
    hs.keeps (List.take_prefix _ _) (List.take_prefix _ _) (Z.certified.prefix_book I S hle hlead)
  have hlen := hkeep.length_le
  rw [List.length_take, Nat.min_eq_left Z.commit_le] at hlen
  refine ⟨hlen, ?_⟩
  have hshort : (s.servers n).raft.commitIndex ≤
      ((s.servers n).raft.log.entries.take (s.servers n).raft.commitIndex).length := by
    rw [List.length_take, Nat.min_eq_left Z.commit_le]
  rw [take_of_isPrefix hkeep hshort, List.take_take, Nat.min_self]

/-- What `commitVerified` says of a request that is accepted and moves the commit index. -/
theorem commitVerified.le {node : RaftNode} {req : AppendEntriesRequest}
    (hv : commitVerified node req) (hc : node.log.Contiguous) (hle : node.currentTerm ≤ req.term)
    (hprev : (node.acceptLeader req).prevMismatch req = false)
    (hlt : node.commitIndex < req.leaderCommit) :
    min req.leaderCommit node.log.entries.length ≤ req.prevLogIndex + req.entries.length := by
  rcases hv with hv | hv | hv | hv
  · omega
  · rw [node.prevMismatch_acceptLeader, hv] at hprev
    cases hprev
  · omega
  · rw [hc.lastIndex_eq] at hv
    exact hv

/-- A piece of the leader's book that the request's leader reports as committed is certified. -/
theorem certified_request (I : HInv m h) (S : Sim m h s) (C : CommitInv s) {r : Rpc}
    {req : AppendEntriesRequest} (hr : r ∈ s.rpcs) (hreq : r.req = .appendEntries req)
    {c : NodeId} (hlead : h.leader req.term = some c) {P : List LogEntry}
    (hP : P <+: h.book req.term) (hlen : P.length ≤ req.leaderCommit) :
    Certified s.history req.term P := by
  rcases C.sent r hr req hreq with h0 | ⟨k, T, N, L, hmem, hT, hN⟩
  · exact Or.inl (List.length_eq_zero_iff.mp (by omega))
  · obtain ⟨hadv, hNL⟩ := S.advanced_book I hmem hT hlead
    refine Or.inr ⟨k, T, N, L, hmem, hT, List.prefix_of_prefix_length_le hP hadv ?_⟩
    rw [List.length_take]
    omega

/-- **An accepted and verified request keeps the node settled.** -/
theorem settled_appended (I : HInv m h) (S : Sim m h s) (C : CommitInv s)
    (Z : Settled s.history (s.servers n).raft) {rpc : Nat} {r : Rpc} {req : AppendEntriesRequest}
    (hr : s.rpcs[rpc]? = some r) (hreq : r.req = .appendEntries req) (hn : r.callee = n)
    (hle : (s.servers n).raft.currentTerm ≤ req.term)
    (hprev : ((s.servers n).raft.acceptLeader req).prevMismatch req = false)
    (hv : commitVerified (s.servers n).raft req) :
    Settled (s.history ++ []) ((s.servers n).raft.appended req) := by
  have N := S.node n
  have R := S.delivered hr hreq hn
  obtain ⟨hs, hcont⟩ := N.appendLoop_spliced I S.books R hprev
  rw [← (s.servers n).raft.appended_log req] at hs
  obtain ⟨hlen, htake⟩ := Z.keeps_committed I S hle R.leads hs
  have hterm := (RaftNode.appended_term hle).1
  rcases (s.servers n).raft.appended_cases req hcont with ⟨hc, hst⟩ | ⟨hlt, hc, hst⟩
  · refine ⟨by rw [hc]; exact hlen, ?_, by rw [hst, hc, ← htake]; exact Z.applied,
      by rw [hst, hc]; exact Z.lastApplied⟩
    rw [hc, hterm, ← htake]
    exact Z.certified.mono hle
  · have hgrow : (s.servers n).raft.commitIndex ≤ ((s.servers n).raft.appended req).commitIndex := by
      rw [hc]; omega
    refine ⟨by rw [hc]; exact Nat.min_le_right _ _, ?_, ?_, ?_⟩
    · -- the new committed part is verified against the leader's book, which has it committed
      have hbook := verified_take hs R.take_eq (hv.le N.contiguous hle hprev hlt)
      rw [List.append_nil, hterm, hc]
      refine certified_request I S C (List.mem_of_getElem? hr) hreq R.leads hbook ?_
      rw [List.length_take]
      omega
    · rw [hst, Z.lastApplied]
      exact applied_take (Z.applied.trans htake) hgrow
    · rw [hst, Z.lastApplied]
      exact Nat.max_eq_right hgrow

/-- **A step that meets the condition keeps the node it changes settled.** -/
theorem settled_effect (I : HInv m h) (S : Sim m h s) (C : CommitInv s)
    (Z : Settled s.history (s.servers n).raft) (hok : verifiedAt n s a)
    (E : Effect m s a n r' evs) : Settled (s.history ++ evs) r' := by
  have N := S.node n
  cases E with
  | follows hf _ =>
    refine ⟨?_, ?_, ?_, ?_⟩
    · rw [hf.commitIndex, hf.log]; exact Z.commit_le
    · rw [hf.commitIndex, hf.log]; exact Z.certified.mono hf.term
    · rw [hf.commitIndex, hf.log, hf.storage]; exact Z.applied
    · rw [hf.commitIndex, hf.storage]; exact Z.lastApplied
  | elected _ _ _ _ =>
    exact ⟨Z.commit_le, Z.certified.mono (Nat.le_refl _), Z.applied, Z.lastApplied⟩
  | proposed _ => exact Z.propose N.contiguous _
  | appended ha hr hreq hn hle hprev =>
    subst ha
    exact settled_appended I S C Z hr hreq hn hle hprev (verifiedAt_deliver hok hr hreq hn)
  | @advanced r₁ c entry hl hf hterm hlt hget =>
    have hlen := N.contiguous.le_of_get hget
    have hst := hf.committed_storage N.contiguous hlen
    refine ⟨?_, Or.inr ⟨n, _, c, _, List.mem_append_right _ (List.mem_singleton_self _), ?_, ?_⟩,
      ?_, ?_⟩
    · show c ≤ r₁.log.entries.length
      rw [hf.log]; exact hlen
    · exact Nat.le_of_eq hterm.symm
    · show r₁.log.entries.take c <+: _
      rw [hf.log]
    · rw [hst]
      show _ = r₁.log.entries.take c
      rw [hf.log, Z.lastApplied]
      exact applied_take Z.applied (Nat.le_of_lt hlt)
    · rw [hst, Z.lastApplied]
      exact Nat.max_eq_right (Nat.le_of_lt hlt)
  | restarted ha _ =>
    subst ha
    exact absurd rfl hok

end Preservation

variable {m : Membership} {hash : Bytes → Nat} {s : Cluster}

/-- **A node whose own requests are verified stays settled**, whatever the others do. -/
theorem run_settled {ok : Cluster → Action → Prop} {k : NodeId}
    (hok : ∀ s a, ok s a → verifiedAt k s a) (hr : Run m hash ok s) :
    Settled s.history (s.servers k).raft := by
  induction hr with
  | init => exact ⟨Nat.le_refl _, Or.inl rfl, rfl, rfl⟩
  | step hr ha hs Z =>
    obtain ⟨h, I, S⟩ := run_simulated hr
    obtain ⟨n, r', evs, E, hn, hother, hhist⟩ := move_effect (step_move hs)
    rw [hhist]
    refine forall_effect hn hother (P := fun j r => j = k → Settled _ r) ?_ ?_ k rfl
    · rintro rfl
      exact settled_effect I S (run_commitInv hr) Z (hok _ _ ha) E
    · rintro j _ rfl
      exact ⟨Z.commit_le, Z.certified.mono (Nat.le_refl _), Z.applied, Z.lastApplied⟩

/-- **State machine safety**, for crash-free runs with verified commits. -/
theorem state_machine_safety (hr : Run m hash verifiedCommits s) {a b : NodeId} {x y : WalRecord}
    (hx : x ∈ (s.servers a).raft.storage.applied) (hy : y ∈ (s.servers b).raft.storage.applied)
    (hindex : x.index = y.index) :
    x.term = y.term ∧ x.op = y.op ∧ x.key = y.key ∧ x.value = y.value := by
  obtain ⟨h, I, S⟩ := run_simulated hr
  have A := run_settled (fun _ _ h => verifiedCommits.node h a) hr
  have B := run_settled (fun _ _ h => verifiedCommits.node h b) hr
  rw [A.applied] at hx
  rw [B.applied] at hy
  obtain ⟨i, hi⟩ := List.getElem?_of_mem hx
  obtain ⟨j, hj⟩ := List.getElem?_of_mem hy
  have hxi := (S.node a).contiguous.numbered i x (getElem?_of_isPrefix (List.take_prefix _ _) hi)
  have hyj := (S.node b).contiguous.numbered j y (getElem?_of_isPrefix (List.take_prefix _ _) hj)
  obtain rfl : i = j := by omega
  have hxy : x = y := by
    rcases A.certified.comparable I S B.certified with hpre | hpre
    · have := getElem?_of_isPrefix hpre hi
      rw [hj] at this
      exact (Option.some.inj this).symm
    · have := getElem?_of_isPrefix hpre hj
      rw [hi] at this
      exact Option.some.inj this
  subst hxy
  exact ⟨rfl, rfl, rfl, rfl⟩

theorem state_machine_safety_committed :
    ∃ s, Run Membership.trio (fun _ => 0) verifiedCommits s ∧
      firstEntry ∈ (s.servers 1).raft.storage.applied ∧
      firstEntry ∈ (s.servers 2).raft.storage.applied ∧
      ∀ y ∈ (s.servers 2).raft.storage.applied, 1 = y.index →
        1 = y.term ∧ WalOp.kSet = y.op ∧ [97] = y.key ∧ [49] = y.value := by
  obtain ⟨s, hr, hs⟩ : ∃ s, Run Membership.trio (fun _ => 0) verifiedCommits s ∧
      decide (firstEntry ∈ (s.servers 1).raft.storage.applied ∧
        firstEntry ∈ (s.servers 2).raft.storage.applied) = true :=
    exists_run
      (electFirst ++ startSet 1 [97] [49] ++
        [.act 1 (.replicate 2), .deliver 2, .act 1 (.replicateReply 2), .act 1 (.replicate 2),
          .deliver 3]) (by decide +kernel)
  obtain ⟨ha, hb⟩ := of_decide_eq_true hs
  exact ⟨s, hr, ha, hb, fun y hy hi => state_machine_safety hr ha hy hi⟩

/-- After `replacedLeader`, a GET on node 2 starts a confirmation round when the last ack has aged;
its first request reaches node 1. -/
def staleSuffix : List Action :=
  replacedLeader ++
    [.tick 100, .act 2 (.read [98]), .act 2 (.readStep 0), .act 2 (.readStep 0),
      .act 2 (.readStep 0), .deliver 8]

/-- **Without the condition two nodes apply different entries at one index.** -/
theorem unverified_suffix_applied :
    ¬ ∀ (m : Membership) (hash : Bytes → Nat) (s : Cluster), Run m hash crashFree s →
      ∀ (a b : NodeId) (x y : WalRecord), x ∈ (s.servers a).raft.storage.applied →
        y ∈ (s.servers b).raft.storage.applied → x.index = y.index →
        x.term = y.term ∧ x.op = y.op ∧ x.key = y.key ∧ x.value = y.value := by
  intro hall
  obtain ⟨s, hr, hs⟩ : ∃ s, Run Membership.trio (fun _ => 0) crashFree s ∧
      decide ((⟨1, 1, .kSet, [97], [49]⟩ : WalRecord) ∈ (s.servers 1).raft.storage.applied ∧
        (⟨2, 1, .kSet, [98], [50]⟩ : WalRecord) ∈ (s.servers 2).raft.storage.applied) = true :=
    exists_run staleSuffix (by decide +kernel)
  obtain ⟨ha, hb⟩ := of_decide_eq_true hs
  exact absurd (hall _ _ s hr 1 2 _ _ ha hb rfl).1 (by decide)

end NeuralKV
