import NeuralKV.Raft.Leadership
import Mathlib.Order.Bounds.Basic

/-!
# The commit rule

`AdvanceCommitIndexLocked` sorts the leader's last index and the match indices, takes the one that
a majority reaches and checks the term of that entry only.

* `Committable` — the rule it stands for: a strict majority of the cluster's nodes reach index `N`,
  and the entry there is of the current term.
* `advanceCommitIndex_isGreatest` — on a log whose terms do not decrease, **the new commit index is
  the largest of the old one and the committable indices**.
* `majority_committed_iff` — the function is only called for a reply of a peer.  **A leader leaves
  no committable index uncommitted, in any run, exactly if its cluster has more than one node**;
  alone in its cluster it never commits anything.
-/

set_option autoImplicit false

namespace NeuralKV

open Cluster
open Runs (anyStep exec exists_run Run.of_exec)

/-! ## The rule -/

namespace RaftNode

/-- How far node `id` is known to hold the leader's log. -/
def reach (config : ClusterConfig) (node : RaftNode) (id : NodeId) : Nat :=
  if id = config.localNodeId then node.log.lastIndex else node.matchIndex.valueAt id

/-- How many nodes of the cluster reach index `N`. -/
def reachedBy (config : ClusterConfig) (node : RaftNode) (N : Nat) : Nat :=
  (config.peers.map (·.nodeId)).countP (fun id => decide (N ≤ node.reach config id))

/-- A strict majority of all nodes reach `N`, and the entry there is of the current term. -/
def Committable (config : ClusterConfig) (node : RaftNode) (N : Nat) : Prop :=
  config.peers.length < 2 * node.reachedBy config N ∧
    ∃ entry, node.log.get N = some entry ∧ entry.term = node.currentTerm

/-- A leader's log and match indices: the log is contiguous, its terms do not decrease and are at
most the current one, and no other peer is known to hold more than the leader. -/
structure Orderly (config : ClusterConfig) (node : RaftNode) : Prop where
  valid : validate config = .Ok
  keys : (node.matchIndex.map (·.1)).Perm config.otherPeers
  numbered : Numbered node.log.entries
  terms : node.log.entries.Pairwise (fun a b => a.term ≤ b.term)
  current : ∀ e ∈ node.log.entries, e.term ≤ node.currentTerm
  matched : ∀ p ∈ node.matchIndex, p.2 ≤ node.log.lastIndex

end RaftNode

theorem PeerMap.valueAt_of_mem :
    ∀ {m : PeerMap} {p : NodeId × Nat}, (m.map (·.1)).Nodup → p ∈ m → m.valueAt p.1 = p.2
  | [], _, _, hp => by cases hp
  | q :: m, p, hnd, hp => by
    obtain ⟨hq, hm⟩ := List.nodup_cons.mp hnd
    rcases List.mem_cons.mp hp with rfl | hp
    · simp [valueAt]
    · have hne : q.1 ≠ p.1 := fun h => hq (List.mem_map.mpr ⟨p, hp, h.symm⟩)
      have ih := PeerMap.valueAt_of_mem hm hp
      simpa [valueAt, hne] using ih

theorem Log.get_of_numbered {log : Log} (h : Numbered log.entries) {index : Nat}
    (h0 : 0 < index) : log.get index = log.entries[index - 1]? := by
  unfold get
  rw [if_neg (by omega)]
  cases he : log.entries[index - 1]? with
  | none => rfl
  | some e =>
    have := h _ e he
    simp only
    rw [if_pos (by omega)]

theorem Log.pos_of_get {log : Log} {index : Nat} {entry : LogEntry}
    (h : log.get index = some entry) : 0 < index := by
  by_contra h0
  have hzero : index = 0 := by omega
  subst hzero
  cases h

/-- The nodes of a cluster are the local node and its other peers. -/
theorem ClusterConfig.ids_perm {config : ClusterConfig} (h : validate config = .Ok) :
    (config.peers.map (·.nodeId)).Perm (config.localNodeId :: config.otherPeers) := by
  obtain ⟨_, hnd, hmem, _⟩ := (validate_ok_iff config).mp h
  have herase : config.otherPeers = (config.peers.map (·.nodeId)).erase config.localNodeId :=
    (hnd.erase_eq_filter config.localNodeId).symm
  rw [herase]
  exact List.perm_cons_erase hmem

namespace RaftNode

section Counting

variable {config : ClusterConfig} {node : RaftNode}

/-- The numbers that `AdvanceCommitIndexLocked` sorts. -/
def indices (node : RaftNode) : List Nat := node.log.lastIndex :: node.matchIndex.map (·.2)

/-- **The nodes that reach an index are counted by the numbers that are sorted.** -/
theorem reachedBy_eq (hvalid : validate config = .Ok)
    (hkeys : (node.matchIndex.map (·.1)).Perm config.otherPeers) (N : Nat) :
    node.reachedBy config N = node.indices.countP (fun x => decide (N ≤ x)) := by
  obtain ⟨_, hnd, _, _⟩ := (validate_ok_iff config).mp hvalid
  have hnd' : (node.matchIndex.map (·.1)).Nodup := hkeys.nodup_iff.mpr (hnd.filter _)
  -- a peer's `match_index_` is the value the map holds for it
  have hreach : node.matchIndex.countP (fun p => decide (N ≤ node.reach config p.1)) =
      node.matchIndex.countP (fun p => decide (N ≤ p.2)) := by
    refine List.countP_congr fun p hp => ?_
    have hne : p.1 ≠ config.localNodeId := by
      have hmem := hkeys.subset (List.mem_map_of_mem hp)
      simpa using (List.mem_filter.mp hmem).2
    rw [reach, if_neg hne, PeerMap.valueAt_of_mem hnd' hp]
  unfold reachedBy indices
  rw [(ClusterConfig.ids_perm hvalid).countP_eq, List.countP_cons, List.countP_cons,
    ← hkeys.countP_eq, List.countP_map, List.countP_map]
  simp only [Function.comp_def]
  rw [hreach]
  simp [reach]

theorem indices_length (hvalid : validate config = .Ok)
    (hkeys : (node.matchIndex.map (·.1)).Perm config.otherPeers) :
    node.indices.length = config.peers.length := by
  have h₁ := hkeys.length_eq
  have h₂ := (ClusterConfig.ids_perm hvalid).length_eq
  rw [List.length_map] at h₁
  rw [List.length_map, List.length_cons] at h₂
  rw [indices, List.length_cons, List.length_map]
  omega

theorem majority_le_iff {n k : Nat} : Quorum.majority n ≤ k ↔ n < 2 * k := by
  unfold Quorum.majority
  omega

theorem not_committable_of_lt (hvalid : validate config = .Ok)
    (hkeys : (node.matchIndex.map (·.1)).Perm config.otherPeers) (hpeers : 2 ≤ config.peers.length)
    {N : Nat} (hlt : ∀ p ∈ node.matchIndex, p.2 < N) : ¬ node.Committable config N := by
  rintro ⟨hmaj, _⟩
  have hnone : (node.matchIndex.map (·.2)).countP (fun x => decide (N ≤ x)) = 0 := by
    rw [List.countP_eq_zero]
    intro x hx
    obtain ⟨p, hp, rfl⟩ := List.mem_map.mp hx
    have := hlt p hp
    simp only [decide_eq_true_eq]
    omega
  rw [reachedBy_eq hvalid hkeys, indices, List.countP_cons, hnone] at hmaj
  split at hmaj <;> omega

end Counting

/-! ## The code -/

/-- `AdvanceCommitIndexLocked` moves the commit index to the number a majority reaches, if that is
an index of the current term above it. -/
theorem advanceCommitIndex_commitIndex (node : RaftNode) {c : Nat}
    (hc : Quorum.nthLargest node.indices (Quorum.majority node.indices.length) = some c) :
    ((node.commitIndex < c ∧ ∃ e, node.log.get c = some e ∧ e.term = node.currentTerm) ∧
        node.advanceCommitIndex.commitIndex = c) ∨
      (¬ (node.commitIndex < c ∧ ∃ e, node.log.get c = some e ∧ e.term = node.currentTerm) ∧
        node.advanceCommitIndex.commitIndex = node.commitIndex) := by
  unfold indices at hc
  unfold advanceCommitIndex
  simp only [hc]
  by_cases hle : c ≤ node.commitIndex
  · rw [if_pos hle]
    exact Or.inr ⟨fun h => by omega, rfl⟩
  · rw [if_neg hle]
    cases hget : node.log.get c with
    | none =>
      refine Or.inr ⟨?_, rfl⟩
      rintro ⟨_, e, he, _⟩
      cases he
    | some e =>
      dsimp only
      by_cases hterm : e.term = node.currentTerm
      · rw [if_pos hterm]
        exact Or.inl ⟨⟨by omega, e, rfl, hterm⟩, rfl⟩
      · rw [if_neg hterm]
        refine Or.inr ⟨?_, rfl⟩
        rintro ⟨_, e', he', hterm'⟩
        cases he'
        exact hterm hterm'

theorem Orderly.current_above {config : ClusterConfig} {node : RaftNode} (O : node.Orderly config)
    {N c : Nat} {entry : LogEntry} (hget : node.log.get N = some entry)
    (hterm : entry.term = node.currentTerm) (hNc : N ≤ c) (hc : c ≤ node.log.lastIndex) :
    ∃ e, node.log.get c = some e ∧ e.term = node.currentTerm := by
  have hN0 := Log.pos_of_get hget
  rw [Log.get_of_numbered O.numbered hN0] at hget
  obtain ⟨hlt, hentry⟩ := List.getElem?_eq_some_iff.mp hget
  have hlast : node.log.lastIndex = node.log.entries.length := O.numbered.getLast
  have hclt : c - 1 < node.log.entries.length := by omega
  refine ⟨_, by rw [Log.get_of_numbered O.numbered (by omega), List.getElem?_eq_getElem hclt], ?_⟩
  refine Nat.le_antisymm (O.current _ (List.getElem_mem hclt)) ?_
  rcases Nat.lt_or_ge (N - 1) (c - 1) with h | h
  · have hpair := List.pairwise_iff_getElem.mp O.terms (N - 1) (c - 1) hlt hclt h
    rw [hentry, hterm] at hpair
    exact hpair
  · have hidx : N - 1 = c - 1 := by omega
    simp only [← hidx, hentry, hterm, Nat.le_refl]

/-- The number that is picked bounds what a strict majority reaches, and lies in the log. -/
theorem Orderly.picked {config : ClusterConfig} {node : RaftNode} (O : node.Orderly config) :
    ∃ c, Quorum.nthLargest node.indices (Quorum.majority node.indices.length) = some c ∧
      (∀ N, config.peers.length < 2 * node.reachedBy config N ↔ N ≤ c) ∧
      c ≤ node.log.lastIndex := by
  have hpos : 0 < Quorum.majority node.indices.length := Nat.succ_pos _
  have hle : Quorum.majority node.indices.length ≤ node.indices.length := by
    have : 0 < node.indices.length := Nat.succ_pos _
    unfold Quorum.majority
    omega
  obtain ⟨c, hc⟩ := Quorum.exists_nthLargest hpos hle
  refine ⟨c, hc, ?_, ?_⟩
  · intro N
    rw [reachedBy_eq O.valid O.keys, Quorum.le_nthLargest_iff hpos hle hc, majority_le_iff,
      indices_length O.valid O.keys]
  · have hcount := (Quorum.le_nthLargest_iff hpos hle hc).mp (Nat.le_refl c)
    obtain ⟨x, hx, hcx⟩ := List.countP_pos_iff.mp (Nat.lt_of_lt_of_le hpos hcount)
    have hcx := of_decide_eq_true hcx
    rcases List.mem_cons.mp hx with rfl | hx
    · exact hcx
    · obtain ⟨p, hp, rfl⟩ := List.mem_map.mp hx
      exact Nat.le_trans hcx (O.matched p hp)

/-- The new commit index is the old one or a committable one, and is below neither the old one nor
any committable one. -/
theorem Orderly.advanceCommitIndex_spec {config : ClusterConfig} {node : RaftNode}
    (O : node.Orderly config) :
    (node.advanceCommitIndex.commitIndex = node.commitIndex ∨
        node.Committable config node.advanceCommitIndex.commitIndex) ∧
      node.commitIndex ≤ node.advanceCommitIndex.commitIndex ∧
      ∀ N, node.Committable config N → N ≤ node.advanceCommitIndex.commitIndex := by
  obtain ⟨c, hc, hreached, hbound⟩ := O.picked
  rcases node.advanceCommitIndex_commitIndex hc with ⟨⟨hlt, hentry⟩, heq⟩ | ⟨hnot, heq⟩
  · rw [heq]
    refine ⟨Or.inr ⟨(hreached c).mpr (Nat.le_refl c), hentry⟩, Nat.le_of_lt hlt, ?_⟩
    rintro N ⟨hN, _⟩
    exact (hreached N).mp hN
  · rw [heq]
    refine ⟨Or.inl rfl, Nat.le_refl _, ?_⟩
    rintro N ⟨hN, entry, hget, hterm⟩
    have hNc := (hreached N).mp hN
    have habove := O.current_above hget hterm hNc hbound
    have : ¬ node.commitIndex < c := fun h => hnot ⟨h, habove⟩
    omega

/-- **`AdvanceCommitIndexLocked` is the majority rule**: afterwards the commit index is the largest
of its old value and the indices of the current term that a strict majority of all nodes reach. -/
theorem advanceCommitIndex_isGreatest {config : ClusterConfig} {node : RaftNode}
    (O : node.Orderly config) :
    IsGreatest (insert node.commitIndex { N | node.Committable config N })
      node.advanceCommitIndex.commitIndex := by
  obtain ⟨hmem, hold, hbound⟩ := O.advanceCommitIndex_spec
  refine ⟨hmem, ?_⟩
  rintro N (rfl | hN)
  · exact hold
  · exact hbound N hN

/-- A leader of three whose log ends in two entries of its term; one peer has the first of them. -/
def halfReplicated : RaftNode where
  state := .kLeader
  currentTerm := 2
  commitIndex := 1
  matchIndex := [(2, 2), (3, 0)]
  log :=
    { entries :=
        [{ term := 1, index := 1, op := .kSet, key := [97], value := [1] },
         { term := 2, index := 2, op := .kSet, key := [97], value := [2] },
         { term := 2, index := 3, op := .kDelete, key := [97], value := [] }] }
  storage := { kv := ShardedKV.empty (fun _ => 0), lastAppliedIndex := 1 }

theorem halfReplicated_orderly : halfReplicated.Orderly (Membership.trio.configOf 1) where
  valid := by decide
  keys := by decide
  numbered := by
    intro i e he
    match i, he with
    | 0, he => cases he; rfl
    | 1, he => cases he; rfl
    | 2, he => cases he; rfl
    | i + 3, he => simp [halfReplicated] at he
  terms := by decide
  current := by decide
  matched := by decide

/-- It commits the entry that two of the three nodes hold. -/
theorem halfReplicated_commits :
    halfReplicated.advanceCommitIndex.commitIndex = 2 ∧
      IsGreatest (insert 1 { N | halfReplicated.Committable (Membership.trio.configOf 1) N }) 2 :=
  ⟨by decide +kernel, by
    have h := advanceCommitIndex_isGreatest halfReplicated_orderly
    rwa [show halfReplicated.advanceCommitIndex.commitIndex = 2 by decide +kernel] at h⟩

end RaftNode

/-! ## Runs -/

section Runs

variable {m : Membership} {h : Hist} {s s' : Cluster} {a : Action} {n : NodeId} {r : RaftNode}

theorem Membership.valid_configOf (m : Membership) (hn : n ∈ m.ids) :
    validate (m.configOf n) = .Ok := by
  obtain ⟨p, hp, rfl⟩ := List.mem_map.mp hn
  exact m.valid p hp

theorem NodeSim.terms (I : HInv m h) (S : NodeSim m h n r) :
    r.log.entries.Pairwise (fun a b => a.term ≤ b.term) := by
  rw [← S.log, List.pairwise_iff_getElem]
  intro i j hi hj hij
  have hroot := I.rooted_log n j _ (List.getElem?_eq_getElem hj)
  refine I.book_le (hroot.subset ?_)
  rw [List.mem_take_iff_getElem]
  exact ⟨i, by omega, rfl⟩

theorem NodeSim.matched (I : HInv m h) (S : NodeSim m h n r) (hl : r.state = .kLeader) :
    ∀ p ∈ r.matchIndex, p.2 ≤ r.log.entries.length := by
  intro p hp
  rw [S.leader_log I hl]
  exact Nat.le_trans ((S.leader hl).acked p hp) (I.ack_le _ _)

/-- **Every leader of a run is in order.** -/
theorem NodeSim.orderly (I : HInv m h) (S : NodeSim m h n r) (hn : n ∈ m.ids)
    (hl : r.state = .kLeader) : r.Orderly (m.configOf n) where
  valid := m.valid_configOf hn
  keys := by rw [(S.leader hl).keys]
  numbered := S.contiguous.numbered
  terms := S.terms I
  current := by
    rw [← S.log, ← S.cur]
    exact I.log_le n
  matched := by
    rw [S.contiguous.lastIndex_eq]
    exact S.matched I hl

/-- Everything a majority holds of the leader's own term is committed. -/
def RaftNode.CaughtUp (config : ClusterConfig) (node : RaftNode) : Prop :=
  ∀ N, node.Committable config N → N ≤ node.commitIndex

/-- What the rule reads. -/
structure RaftNode.SameVotes (r r' : RaftNode) : Prop where
  log : r'.log = r.log
  term : r'.currentTerm = r.currentTerm
  matchIndex : r'.matchIndex = r.matchIndex

theorem RaftNode.SameVotes.committable {config : ClusterConfig} {r r' : RaftNode}
    (V : r.SameVotes r') {N : Nat} (h : r'.Committable config N) : r.Committable config N := by
  unfold Committable reachedBy reach at h ⊢
  rw [V.log, V.term, V.matchIndex] at h
  exact h

theorem RaftNode.SameVotes.orderly {config : ClusterConfig} {r r' : RaftNode}
    (V : r.SameVotes r') (O : r'.Orderly config) : r.Orderly config := by
  obtain ⟨h₁, h₂, h₃, h₄, h₅, h₆⟩ := O
  rw [V.matchIndex] at h₂ h₆
  rw [V.log] at h₃ h₄ h₅ h₆
  rw [V.term] at h₅
  exact ⟨h₁, h₂, h₃, h₄, h₅, h₆⟩

theorem RaftNode.sameVotes_advanceCommitIndex (r : RaftNode) : r.SameVotes r.advanceCommitIndex :=
  let F := r.advanceCommitIndex_fields
  ⟨F.1, F.2.1, F.2.2.1⟩

/-- `Propose` on a leader that is not alone: the new entry is held by the leader only. -/
theorem caughtUp_proposed (I : HInv m h) (S : NodeSim m h n r) (hn : n ∈ m.ids)
    (hpeers : 2 ≤ m.peers.length) (hl : r.state = .kLeader) {entry : LogEntry}
    (hentry : entry.index = r.log.wal.lastIndex + 1) (hold : r.CaughtUp (m.configOf n))
    {r' : RaftNode} (hlog : r'.log = r.log.append entry)
    (hterm : r'.currentTerm = r.currentTerm) (hcommit : r'.commitIndex = r.commitIndex)
    (hmatch : r'.matchIndex = r.matchIndex) : r'.CaughtUp (m.configOf n) := by
  have O := S.orderly I hn hl
  have happ := Log.append_entries_self S.contiguous
    (by rw [hentry, S.contiguous.lastIndex] : entry.index = r.log.entries.length + 1)
  have hcont := Log.append_contiguous S.contiguous entry
  have hkeys : (r'.matchIndex.map (·.1)).Perm (m.configOf n).otherPeers := by
    rw [hmatch]
    exact O.keys
  intro N hN
  by_cases hlast : N ≤ r.log.entries.length
  · -- an old entry is reached by the same nodes as before
    obtain ⟨hmaj, e, hget, het⟩ := hN
    have hN0 := Log.pos_of_get hget
    rw [hcommit]
    refine hold N ⟨?_, e, ?_, het.trans hterm⟩
    · rw [RaftNode.reachedBy_eq O.valid hkeys] at hmaj
      rw [RaftNode.reachedBy_eq O.valid O.keys]
      simp only [RaftNode.indices, List.countP_cons] at hmaj ⊢
      rw [hlog, hmatch, hcont.lastIndex_eq, happ, List.length_append,
        if_pos (decide_eq_true (by omega))] at hmaj
      rw [S.contiguous.lastIndex_eq, if_pos (decide_eq_true hlast)]
      exact hmaj
    · rw [hlog, hcont.get_eq hN0, happ, List.getElem?_append_left (by omega)] at hget
      rw [S.contiguous.get_eq hN0]
      exact hget
  · refine absurd hN (RaftNode.not_committable_of_lt O.valid hkeys hpeers ?_)
    rw [hmatch]
    intro p hp
    have := S.matched I hl p hp
    omega

/-- **Being caught up is kept by every step**, if no leader is alone in its cluster. -/
theorem caughtUp_step (I : HInv m h) (S : Sim m h s) {h' : Hist} (I' : HInv m h') (S' : Sim m h' s')
    (hpeers : 2 ≤ m.peers.length) (hn : n ∈ m.ids)
    (ih : (s.servers n).raft.state = .kLeader → (s.servers n).raft.CaughtUp (m.configOf n))
    (mv : Move m s a s') (hl : (s'.servers n).raft.state = .kLeader) :
    (s'.servers n).raft.CaughtUp (m.configOf n) := by
  have O' := (S'.node n).orderly I' hn hl
  have L := move_leader S mv hl
  generalize (s'.servers n).raft = r' at O' L
  cases L with
  | kept hsame =>
    intro N hN
    rw [hsame.commitIndex]
    exact ih hsame.state N
      (RaftNode.SameVotes.committable ⟨hsame.log, hsame.term, hsame.matchIndex⟩ hN)
  | elected _ _ _ _ =>
    -- no peer is known to hold anything yet
    intro N hN
    obtain ⟨e, hget, _⟩ := hN.2
    refine absurd hN (RaftNode.not_committable_of_lt O'.valid O'.keys hpeers ?_)
    intro p hp
    obtain ⟨id, _, rfl⟩ := List.mem_map.mp hp
    exact Log.pos_of_get hget
  | proposed _ hst hentry =>
    exact caughtUp_proposed I (S.node n) hn hpeers hst hentry (ih hst) rfl rfl rfl rfl
  | @entered _ peer req _ _ _ _ _ _ =>
    have V := ((s.servers n).raft.recordAck req.entries peer s.clock).sameVotes_advanceCommitIndex
    intro N hN
    exact (V.orderly O').advanceCommitIndex_spec.2.2 N (V.committable hN)
  | backedOff _ hst _ _ _ =>
    intro N hN
    exact ih hst N (RaftNode.SameVotes.committable ⟨rfl, rfl, rfl⟩ hN)

/-- **In every run of a cluster of two or more, a leader has committed all that a majority
holds.** -/
theorem run_caughtUp {hash : Bytes → Nat} {ok : Cluster → Action → Prop}
    (hpeers : 2 ≤ m.peers.length) (hr : Run m hash ok s) :
    ∀ n ∈ m.ids, (s.servers n).raft.state = .kLeader →
      (s.servers n).raft.CaughtUp (m.configOf n) := by
  induction hr with
  | init =>
    intro n _ hl
    cases hl
  | step hr ha hs ih =>
    intro n hn hl
    obtain ⟨h, I, S⟩ := run_simulated hr
    obtain ⟨h', I', S'⟩ := run_simulated (hr.step ha hs)
    exact caughtUp_step I S I' S' hpeers hn (ih n hn) (step_move hs) hl

/-- A leader that is alone in its cluster appends an entry and never calls
`AdvanceCommitIndexLocked`. -/
theorem alone_uncommitted (hone : m.peers.length = 1) (hash : Bytes → Nat) :
    ∃ s, Run m hash anyStep s ∧ ∃ n ∈ m.ids, (s.servers n).raft.state = .kLeader ∧
      ¬ (s.servers n).raft.CaughtUp (m.configOf n) := by
  obtain ⟨p, hp⟩ := List.length_eq_one_iff.mp hone
  have hids : p.nodeId ∈ m.ids := by simp [Membership.ids, hp]
  have hothers : (m.configOf p.nodeId).otherPeers = [] := by
    simp [ClusterConfig.otherPeers, Membership.configOf, hp]
  have hmaj : (m.configOf p.nodeId).majority = 1 := by
    simp [ClusterConfig.majority, Membership.configOf, Quorum.majority, hp]
  -- an election with one's own vote, and a SET
  obtain ⟨s, hs, hst, hterm, hcommit, hlog⟩ : ∃ s, exec (step m) anyStep (Cluster.init hash)
      [.act p.nodeId .startElection, .act p.nodeId .endElection,
       .act p.nodeId (.write .kSet [97] [1]), .act p.nodeId (.writeStep 0 false),
       .act p.nodeId (.writeStep 0 false)] = some s ∧
      (s.servers p.nodeId).raft.state = .kLeader ∧ (s.servers p.nodeId).raft.currentTerm = 1 ∧
      (s.servers p.nodeId).raft.commitIndex = 0 ∧
      (s.servers p.nodeId).raft.log.entries = [⟨1, 1, .kSet, [97], [1]⟩] := by
    simp [exec, anyStep, step, hids, actStep, Cluster.init, Cluster.update, hothers, hmaj,
      RaftNode.startElection, RaftNode.persistState, RaftNode.finishElection, RaftNode.becomeLeader,
      RaftNode.fresh, Write.step, RaftNode.proposeAppend, Runs.putThread, Log.append]
  refine ⟨s, Run.of_exec _ .init hs, p.nodeId, hids, hst, fun hall => ?_⟩
  have hN : (s.servers p.nodeId).raft.Committable (m.configOf p.nodeId) 1 := by
    constructor
    · simp [RaftNode.reachedBy, RaftNode.reach, Membership.configOf, hp, Log.lastIndex, hlog]
    · exact ⟨⟨1, 1, .kSet, [97], [1]⟩, by simp [Log.get, hlog], hterm.symm⟩
  have := hall 1 hN
  omega

/-- **No majority-replicated entry is left uncommitted, in any run, exactly if no node is alone in
its cluster.** -/
theorem majority_committed_iff (m : Membership) (hash : Bytes → Nat) :
    (∀ s, Run m hash anyStep s → ∀ n ∈ m.ids, (s.servers n).raft.state = .kLeader →
        ∀ N, (s.servers n).raft.Committable (m.configOf n) N →
          N ≤ (s.servers n).raft.commitIndex) ↔
      m.peers.length ≠ 1 := by
  constructor
  · intro hall hone
    obtain ⟨s, hr, n, hn, hl, hnot⟩ := alone_uncommitted hone hash
    exact hnot (hall s hr n hn hl)
  · intro hne s hr n hn hl
    have hpos : 0 < m.peers.length := by
      rw [← m.ids_length]
      exact List.length_pos_of_mem hn
    exact run_caughtUp (by omega) hr n hn hl

end Runs

/-- With three nodes, the entry that the leader and one follower hold is committed. -/
theorem trio_majority_committed :
    ∃ s, Run Membership.trio (fun _ => 0) anyStep s ∧ (s.servers 1).raft.state = .kLeader ∧
      (s.servers 1).raft.Committable (Membership.trio.configOf 1) 1 ∧
      1 ≤ (s.servers 1).raft.commitIndex := by
  obtain ⟨s, hr, hs⟩ : ∃ s : Cluster, Run Membership.trio (fun _ => 0) anyStep s ∧
      decide ((s.servers 1).raft.state = .kLeader ∧
        3 < 2 * (s.servers 1).raft.reachedBy (Membership.trio.configOf 1) 1 ∧
        ((s.servers 1).raft.log.get 1).map (·.term) = some (s.servers 1).raft.currentTerm) = true :=
    exists_run
      [.act 1 .startElection, .act 1 .callVoter, .deliver 0, .act 1 .voteReply, .act 1 .callVoter,
       .act 1 .voteLost, .act 1 .endElection, .act 1 (.write .kSet [97] [1]),
       .act 1 (.writeStep 0 false), .act 1 (.writeStep 0 false), .act 1 (.replicate 2),
       .deliver 2, .act 1 (.replicateReply 2)]
      (by decide +kernel)
  obtain ⟨hst, hmaj, hget⟩ := of_decide_eq_true hs
  obtain ⟨e, he, hterm⟩ := Option.map_eq_some_iff.mp hget
  have hN : (s.servers 1).raft.Committable (Membership.trio.configOf 1) 1 := ⟨hmaj, e, he, hterm⟩
  exact ⟨s, hr, hst, hN, (majority_committed_iff Membership.trio (fun _ => 0)).mpr (by decide)
    s hr 1 (by decide) hst 1 hN⟩

/-- A cluster of one node. -/
def Membership.solo : Membership where
  peers := [{ nodeId := 1 }]
  valid := by decide

/-- A SET on the only node of a cluster: all nodes hold its entry, it is not committed, and the
client is told that its write failed. -/
theorem solo_write_times_out :
    ∃ s, Run Membership.solo (fun _ => 0) anyStep s ∧
      (s.servers 1).raft.state = .kLeader ∧
      (s.servers 1).raft.Committable (Membership.solo.configOf 1) 1 ∧
      (s.servers 1).raft.commitIndex = 0 ∧
      s.history.getLast? =
        some (.answered 1 (some ⟨1, 1, .kSet, [97], [1]⟩) { status := .kInternalError }) := by
  obtain ⟨s, hr, hs⟩ : ∃ s : Cluster, Run Membership.solo (fun _ => 0) anyStep s ∧
      decide ((s.servers 1).raft.state = .kLeader ∧
        (1 < 2 * (s.servers 1).raft.reachedBy (Membership.solo.configOf 1) 1 ∧
          ((s.servers 1).raft.log.get 1).map (·.term) = some (s.servers 1).raft.currentTerm) ∧
        (s.servers 1).raft.commitIndex = 0 ∧
        s.history.getLast? =
          some (.answered 1 (some ⟨1, 1, .kSet, [97], [1]⟩) { status := .kInternalError })) =
        true :=
    exists_run
      [.act 1 .startElection, .act 1 .endElection, .act 1 (.write .kSet [97] [1]),
       .act 1 (.writeStep 0 false), .act 1 (.writeStep 0 false), .act 1 (.writeStep 0 true)]
      (by decide +kernel)
  obtain ⟨hst, ⟨hmaj, hget⟩, hcommit, hlast⟩ := of_decide_eq_true hs
  obtain ⟨e, he, hterm⟩ := Option.map_eq_some_iff.mp hget
  exact ⟨s, hr, hst, ⟨hmaj, e, he, hterm⟩, hcommit, hlast⟩

end NeuralKV
