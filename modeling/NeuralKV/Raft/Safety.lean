import NeuralKV.Raft.SimulationStep

/-!
# Election safety, log matching and leader completeness

The safety properties of the cluster that hold in every run: any interleaving of lock scopes,
any delay, reordering and loss of messages, crashes and restarts between scopes.

* `election_safety` — `BecomeLeaderLocked` runs at most once in a term.
* `leader_completeness_run` — what a leader's `AdvanceCommitIndexLocked` has committed is in the
  log of every leader of a later term, at the moment it is elected.
* `log_matching_run` — two logs with an entry of the same index and term are equal up to it.

All three are read off the simulation: an event is a fact of the history, and the history
satisfies the invariant of `NeuralKV.Lib.ConsensusInv`.
-/

set_option autoImplicit false

namespace NeuralKV

open Consensus Cluster
open Runs (anyStep exists_run)

/-! ## Pieces of runs -/

/-- Node 1 is elected in term 1 by node 2. -/
def electFirst : List Action :=
  [.act 1 .startElection, .act 1 .callVoter, .deliver 0, .act 1 .voteReply, .act 1 .callVoter,
    .act 1 .voteLost, .act 1 .endElection]

/-- After two requests of node 1, node 2 is elected in term 2 by node 3. -/
def electSecond : List Action :=
  [.act 2 .startElection, .act 2 .callVoter, .act 2 .voteLost, .act 2 .callVoter, .deliver 5,
    .act 2 .voteReply, .act 2 .endElection]

/-- A SET on node `n` up to the point where `Propose` waits. -/
def startSet (n : NodeId) (key value : Bytes) : List Action :=
  [.act n (.write .kSet key value), .act n (.writeStep 0 false), .act n (.writeStep 0 false)]

/-- Node 1 leads term 1, replicates its first entry to node 2, commits and acknowledges it; its
request to node 3 is lost.  Then node 2 is elected in term 2 with the vote of node 3. -/
def failover : List Action :=
  electFirst ++ startSet 1 [97] [49] ++
    [.act 1 (.replicate 2), .deliver 2, .act 1 (.replicateReply 2), .act 1 (.replicate 3),
      .act 1 (.writeStep 0 false)] ++ electSecond

/-- Node 1 leads term 1 and appends an entry that nobody receives.  Node 2 is elected in term 2
by node 3 and commits an entry of its own at index 1 with node 3. -/
def replacedLeader : List Action :=
  electFirst ++ startSet 1 [97] [49] ++ [.act 1 (.replicate 2), .act 1 (.replicate 3)] ++
    electSecond ++ startSet 2 [98] [50] ++
    [.act 2 (.replicate 1), .act 2 (.replicate 3), .deliver 7, .act 2 (.replicateReply 7)]

/-- The entry of `failover`. -/
def firstEntry : LogEntry := { term := 1, index := 1, op := .kSet, key := [97], value := [49] }

/-! ## Results -/

variable {m : Membership} {hash : Bytes → Nat} {s : Cluster}

/-- Positions of duplicate-free labels are determined by the label. -/
theorem position_unique {α β : Type} {f : α → Option β} :
    ∀ {l : List α}, (l.filterMap f).Nodup → ∀ {i j : Nat} {a b : α} {c : β}, l[i]? = some a →
      l[j]? = some b → f a = some c → f b = some c → i = j
  | [], _, i, _, _, _, _, hi, _, _, _ => by simp at hi
  | x :: l, hnd, i, j, a, b, c, hi, hj, ha, hb => by
    have mem : ∀ {k : Nat} {y : α}, l[k]? = some y → f y = some c → c ∈ l.filterMap f :=
      fun hk hy => List.mem_filterMap.mpr ⟨_, List.mem_of_getElem? hk, hy⟩
    have tail : (l.filterMap f).Nodup := hnd.sublist ((List.sublist_cons_self x l).filterMap f)
    cases i with
    | zero =>
      cases j with
      | zero => rfl
      | succ j =>
        cases hi
        rw [List.filterMap_cons_some ha] at hnd
        exact absurd (mem hj hb) (List.nodup_cons.mp hnd).1
    | succ i =>
      cases j with
      | zero =>
        cases hj
        rw [List.filterMap_cons_some hb] at hnd
        exact absurd (mem hi ha) (List.nodup_cons.mp hnd).1
      | succ j => exact congrArg (· + 1) (position_unique tail hi hj ha hb)

/-- **Election safety**: two executions of `BecomeLeaderLocked` in one term are the same. -/
theorem election_safety (hr : Run m hash anyStep s) {i j : Nat} {n n' : NodeId} {T : Nat}
    {L L' : List LogEntry} (hi : s.history[i]? = some (.becameLeader n T L))
    (hj : s.history[j]? = some (.becameLeader n' T L')) : i = j := by
  obtain ⟨h, _, S⟩ := run_simulated hr
  exact position_unique S.history.once hi hj rfl rfl

theorem election_safety_failover :
    ∃ s, Run Membership.trio (fun _ => 0) anyStep s ∧
      s.history[5]? = some (.becameLeader 2 2 [firstEntry]) ∧
      ∀ j n L, s.history[j]? = some (.becameLeader n 2 L) → 5 = j := by
  obtain ⟨s, hr, hs⟩ : ∃ s, Run Membership.trio (fun _ => 0) anyStep s ∧
      decide (s.history[5]? = some (Event.becameLeader 2 2 [firstEntry])) = true :=
    exists_run failover (by decide +kernel)
  have h5 := of_decide_eq_true hs
  exact ⟨s, hr, h5, fun j n L hj => election_safety hr h5 hj⟩

/-- A leader of a later term stands with everything committed before. -/
theorem Sim.leader_complete {h : Hist} (I : HInv m h) (S : Sim m h s) {n n' : NodeId}
    {T T' N : Nat} {L L' : List LogEntry} (ha : Event.advanced n T N L ∈ s.history)
    (hb : Event.becameLeader n' T' L' ∈ s.history) (hT : T < T') :
    L.take N <+: L' ∧ N ≤ L.length := by
  obtain ⟨_, hC, hpre, hN⟩ := S.history.events _ ha
  obtain ⟨hlead, hstood⟩ := S.history.events _ hb
  rw [← take_of_isPrefix hpre hN]
  exact ⟨leader_completeness I hC T' n' L' hT hlead hstood, hN⟩

/-- What a leader proposes stands behind the log it was elected with. -/
theorem Sim.stood_lt {h : Hist} (I : HInv m h) (S : Sim m h s) {n : NodeId} {e : LogEntry}
    (P : ProposedBy h n e) {L : List LogEntry}
    (hled : Event.becameLeader n e.term L ∈ s.history) : L.length < e.index := by
  obtain ⟨hlead, hpos, hbook⟩ := P
  obtain ⟨L₀, hstood, hpre, _⟩ := (I.elected e.term n hlead).stood
  have hL := (S.history.events _ hled).2
  rw [hstood] at hL
  cases hL
  by_contra hle
  have hlt : e.index - 1 < L.length := by omega
  have hmem : L[e.index - 1]? = some (L.get ⟨_, hlt⟩) := List.getElem?_eq_getElem hlt
  have heq := getElem?_of_isPrefix hpre hmem
  rw [hbook] at heq
  have hterm := (I.stood_le _ _ _ hstood).2.2 _ (List.mem_of_getElem? hmem)
  rw [← Option.some.inj heq] at hterm
  exact absurd hterm (Nat.lt_irrefl _)

/-- **Leader completeness**: every leader of a later term starts with the committed entries. -/
theorem leader_completeness_run (hr : Run m hash anyStep s) {n n' : NodeId} {T T' N : Nat}
    {L L' : List LogEntry} (ha : Event.advanced n T N L ∈ s.history)
    (hb : Event.becameLeader n' T' L' ∈ s.history) (hT : T < T') {i : Nat} (h0 : 0 < i)
    (hi : i ≤ N) : ∃ e, L[i - 1]? = some e ∧ L'[i - 1]? = some e := by
  obtain ⟨h, I, S⟩ := run_simulated hr
  obtain ⟨hpre, hN⟩ := S.leader_complete I ha hb hT
  have hlt : i - 1 < L.length := by omega
  have hL : L[i - 1]? = some (L.get ⟨i - 1, hlt⟩) := List.getElem?_eq_getElem hlt
  refine ⟨_, hL, getElem?_of_isPrefix hpre ?_⟩
  rw [List.getElem?_take_of_lt (by omega)]
  exact hL

theorem leader_completeness_failover :
    ∃ s, Run Membership.trio (fun _ => 0) anyStep s ∧
      Event.advanced 1 1 1 [firstEntry] ∈ s.history ∧
      Event.becameLeader 2 2 [firstEntry] ∈ s.history ∧
      ∃ e, [firstEntry][0]? = some e ∧ [firstEntry][0]? = some e := by
  obtain ⟨s, hr, hs⟩ : ∃ s, Run Membership.trio (fun _ => 0) anyStep s ∧
      decide (Event.advanced 1 1 1 [firstEntry] ∈ s.history ∧
        Event.becameLeader 2 2 [firstEntry] ∈ s.history) = true :=
    exists_run failover (by decide +kernel)
  obtain ⟨ha, hb⟩ := of_decide_eq_true hs
  exact ⟨s, hr, ha, hb,
    leader_completeness_run hr ha hb (by decide) (i := 1) (by decide) (by decide)⟩

/-- **Log matching**: logs with an entry of the same index and term agree up to it. -/
theorem log_matching_run (hr : Run m hash anyStep s) {a b : NodeId} {e e' : LogEntry}
    (he : e ∈ (s.servers a).raft.log.entries) (he' : e' ∈ (s.servers b).raft.log.entries)
    (hindex : e.index = e'.index) (hterm : e.term = e'.term) {k : Nat} (h0 : 0 < k)
    (hk : k ≤ e.index) :
    ∃ x, (s.servers a).raft.log.get k = some x ∧ (s.servers b).raft.log.get k = some x := by
  obtain ⟨h, I, S⟩ := run_simulated hr
  have A := S.node a
  have B := S.node b
  obtain ⟨i, hi⟩ := List.getElem?_of_mem he
  obtain ⟨j, hj⟩ := List.getElem?_of_mem he'
  have hei := A.contiguous.numbered i e hi
  have hej := B.contiguous.numbered j e' hj
  obtain rfl : i = j := by omega
  have hlen := (List.getElem?_eq_some_iff.mp hi).1
  have htake := log_matching I (by rw [A.log]; exact hi) (by rw [B.log]; exact hj) hterm
  rw [A.log, B.log] at htake
  rw [A.contiguous.get_eq h0, B.contiguous.get_eq h0,
    ← List.getElem?_take_of_lt (show k - 1 < i + 1 by omega),
    ← List.getElem?_take_of_lt (l := (s.servers b).raft.log.entries) (show k - 1 < i + 1 by omega),
    ← htake]
  have hlt : k - 1 < ((s.servers a).raft.log.entries.take (i + 1)).length := by
    rw [List.length_take]; omega
  exact ⟨_, List.getElem?_eq_getElem hlt, List.getElem?_eq_getElem hlt⟩

theorem log_matching_failover :
    ∃ s, Run Membership.trio (fun _ => 0) anyStep s ∧
      firstEntry ∈ (s.servers 1).raft.log.entries ∧ firstEntry ∈ (s.servers 2).raft.log.entries ∧
      ∃ x, (s.servers 1).raft.log.get 1 = some x ∧ (s.servers 2).raft.log.get 1 = some x := by
  obtain ⟨s, hr, hs⟩ : ∃ s, Run Membership.trio (fun _ => 0) anyStep s ∧
      decide (firstEntry ∈ (s.servers 1).raft.log.entries ∧
        firstEntry ∈ (s.servers 2).raft.log.entries) = true :=
    exists_run failover (by decide +kernel)
  obtain ⟨ha, hb⟩ := of_decide_eq_true hs
  exact ⟨s, hr, ha, hb, log_matching_run hr ha hb rfl rfl (by decide) (by decide)⟩

end NeuralKV
