import NeuralKV.Lib.Quorum
import NeuralKV.Storage.ShardedKV

/-!
# Cluster configuration

Model of `ClusterConfig` and `Validate` of `src/cluster/cluster_config.cpp`.

A `Membership` is a peer list that every one of its nodes accepts as its own configuration
(`node_id` set to that node): the "same peers, only `node_id` differs" rule of
`docs/cluster-config.md`.  What `Validate` guarantees is read off in `Membership.ids_nodup` and
`Membership.ids_ne_zero`.
-/

set_option autoImplicit false

namespace NeuralKV

/-- `uint32_t` node ids; `0` stands for "none". -/
abbrev NodeId := Nat

structure PeerInfo where
  nodeId : NodeId := 0
  host : Bytes := []
  port : Nat := 0
  deriving DecidableEq, Repr

structure ClusterConfig where
  localNodeId : NodeId := 0
  leaderNodeId : NodeId := 0
  peers : List PeerInfo := []
  deriving DecidableEq, Repr

/-- The loop of `Validate`: no later peer repeats an id; `seen_local` and `seen_leader` are
carried along. -/
def validatePeers (config : ClusterConfig) :
    List PeerInfo → Bool → Bool → Except Status (Bool × Bool)
  | [], seenLocal, seenLeader => .ok (seenLocal, seenLeader)
  | peer :: rest, seenLocal, seenLeader =>
    if rest.any (fun p => p.nodeId == peer.nodeId) then
      .error ⟨.kInvalidArgument, "duplicate peer id " ++ toString peer.nodeId⟩
    else
      validatePeers config rest (seenLocal || peer.nodeId == config.localNodeId)
        (seenLeader || peer.nodeId == config.leaderNodeId)

/-- `Validate`. -/
def validate (config : ClusterConfig) : Status :=
  if config.localNodeId = 0 then ⟨.kInvalidArgument, "cluster config missing node_id"⟩
  else if config.peers = [] then ⟨.kInvalidArgument, "cluster config has no peers"⟩
  else
    match validatePeers config config.peers false (config.leaderNodeId == 0) with
    | .error status => status
    | .ok (seenLocal, seenLeader) =>
      if !seenLocal then ⟨.kInvalidArgument, "local node_id is not in the peer list"⟩
      else if !seenLeader then ⟨.kInvalidArgument, "leader_id is not in the peer list"⟩
      else .Ok

/-- The loop of `Validate` accepts distinct ids, and then tells which of the two ids it has seen. -/
theorem validatePeers_ok_iff (config : ClusterConfig) :
    ∀ (peers : List PeerInfo) (a b : Bool) (r : Bool × Bool),
      validatePeers config peers a b = .ok r ↔ (peers.map (·.nodeId)).Nodup ∧
        r = (a || decide (config.localNodeId ∈ peers.map (·.nodeId)),
          b || decide (config.leaderNodeId ∈ peers.map (·.nodeId)))
  | [], a, b, r => by simp [validatePeers, eq_comm]
  | peer :: rest, a, b, r => by
    unfold validatePeers
    have hdup : rest.any (fun p => p.nodeId == peer.nodeId) = true ↔
        peer.nodeId ∈ rest.map (·.nodeId) := by simp
    split
    · rename_i h
      have := hdup.mp h
      simp [this]
    · rename_i h
      rw [validatePeers_ok_iff config rest, List.map_cons, List.nodup_cons]
      have hfresh : peer.nodeId ∉ rest.map (·.nodeId) := fun hm => h (hdup.mpr hm)
      simp only [hfresh, not_false_eq_true, true_and, List.mem_cons, Bool.decide_or,
        Bool.or_assoc, eq_comm (a := config.localNodeId), eq_comm (a := config.leaderNodeId)]
      rfl

theorem validatePeers_error (config : ClusterConfig) :
    ∀ (peers : List PeerInfo) (a b : Bool) (status : Status),
      validatePeers config peers a b = .error status → status.ok = false
  | [], _, _, _, h => by cases h
  | peer :: rest, a, b, status, h => by
    unfold validatePeers at h
    split at h
    · cases h
      rfl
    · exact validatePeers_error config rest _ _ status h

theorem validate_ok_eq (config : ClusterConfig) :
    (validate config).ok = true ↔ validate config = .Ok := by
  constructor
  · intro h
    unfold validate at h ⊢
    split at h
    · cases h
    · split at h
      · cases h
      · split at h
        · rename_i status hstatus
          rw [validatePeers_error config _ _ _ status hstatus] at h
          cases h
        · split at h
          · cases h
          · split at h
            · cases h
            · simp_all
  · intro h
    rw [h]
    rfl

/-- **What `Validate` accepts**: a non-zero local id, pairwise distinct peer ids, and the local id
and a given leader id among them. -/
theorem validate_ok_iff (config : ClusterConfig) :
    validate config = .Ok ↔ config.localNodeId ≠ 0 ∧ (config.peers.map (·.nodeId)).Nodup ∧
      config.localNodeId ∈ config.peers.map (·.nodeId) ∧
      (config.leaderNodeId = 0 ∨ config.leaderNodeId ∈ config.peers.map (·.nodeId)) := by
  unfold validate
  by_cases h0 : config.localNodeId = 0
  · simp [h0, Status.Ok]
  · rw [if_neg h0]
    by_cases hp : config.peers = []
    · simp [hp, Status.Ok]
    · rw [if_neg hp]
      cases hv : validatePeers config config.peers false (config.leaderNodeId == 0) with
      | error status =>
        have hbad := validatePeers_error config _ _ _ status hv
        refine ⟨fun h => absurd (congrArg Status.ok h) (by simp [hbad]), ?_⟩
        rintro ⟨_, hnd, _⟩
        rw [(validatePeers_ok_iff config _ _ _ _).mpr ⟨hnd, rfl⟩] at hv
        cases hv
      | ok r =>
        obtain ⟨hnd, rfl⟩ := (validatePeers_ok_iff config _ _ _ _).mp hv
        by_cases hl : config.localNodeId ∈ config.peers.map (·.nodeId)
        · by_cases hz : config.leaderNodeId = 0 ∨
            config.leaderNodeId ∈ config.peers.map (·.nodeId)
          · rcases hz with hz | hz <;> simp [hz, hl, hnd, h0]
          · have hz' := not_or.mp hz
            simp [hz'.1, hz'.2, hl, Status.Ok]
        · simp [hl, Status.Ok]

/-- An accepted configuration has a non-zero local id and pairwise distinct peer ids. -/
theorem validate_ok {config : ClusterConfig} (h : validate config = .Ok) :
    config.localNodeId ≠ 0 ∧ (config.peers.map (·.nodeId)).Nodup := by
  obtain ⟨h₁, h₂, _⟩ := (validate_ok_iff config).mp h
  exact ⟨h₁, h₂⟩

/-- One peer list shared by all nodes of a cluster, accepted by `Validate` at each of them. -/
structure Membership where
  peers : List PeerInfo
  leaderNodeId : NodeId := 0
  valid : ∀ p ∈ peers, validate ⟨p.nodeId, leaderNodeId, peers⟩ = .Ok

namespace Membership

/-- The configuration of node `n`. -/
def configOf (m : Membership) (n : NodeId) : ClusterConfig := ⟨n, m.leaderNodeId, m.peers⟩

def ids (m : Membership) : List NodeId := m.peers.map (·.nodeId)

theorem ids_nodup (m : Membership) : m.ids.Nodup := by
  unfold ids
  cases hp : m.peers with
  | nil => exact List.nodup_nil
  | cons p ps =>
    have hv := m.valid p (by rw [hp]; exact List.mem_cons_self)
    rw [← hp]
    exact (validate_ok hv).2

theorem ids_ne_zero (m : Membership) {n : NodeId} (hn : n ∈ m.ids) : n ≠ 0 := by
  obtain ⟨p, hp, rfl⟩ := List.mem_map.mp hn
  exact (validate_ok (m.valid p hp)).1

theorem ids_length (m : Membership) : m.ids.length = m.peers.length := List.length_map _

/-- Three nodes, the smallest cluster that survives a failure. -/
def trio : Membership where
  peers := [{ nodeId := 1 }, { nodeId := 2 }, { nodeId := 3 }]
  valid := by decide

end Membership

/-- `config_.peers` without the local node: the peers every RPC loop visits. -/
def ClusterConfig.otherPeers (config : ClusterConfig) : List NodeId :=
  (config.peers.map (·.nodeId)).filter (fun id => id != config.localNodeId)

/-- `static_cast<int>(config_.peers.size()) / 2 + 1`. -/
def ClusterConfig.majority (config : ClusterConfig) : Nat := Quorum.majority config.peers.length

end NeuralKV
