import NeuralKV.Cluster.ConfigFile

/-!
# Loading the cluster config

Model of `LoadClusterConfig` of `src/cluster/cluster_config.cpp`: the lines of the file one after
another, and `Validate` at the end.

* `ClusterConfig.Says` — the configuration has the last `node_id` and `leader_id` of the file and
  its peers in order, with the numbers that are written there.
* `load_faithful_of_bounded` — **an accepted configuration says what the file says, and a number
  that does not fit its field is rejected, if the numbers of `node_id` and `leader_id` lines are
  below `2 ^ 32` and all other numbers behind a `=` below `2 ^ 64`.**
* `load_faithful_iff_rejected` — a file with a larger number is rejected for another fault, or it is
  not told as it is.
* `wrapped_node_id_accepted` — `node_id=4294967297` is accepted as node 1.
-/

set_option autoImplicit false

namespace NeuralKV

open Text

/-- The loop of `LoadClusterConfig`. -/
def parseLines : List Bytes → ClusterConfig → Except LoadFailure ClusterConfig
  | [], config => .ok config
  | line :: rest, config =>
    match parseLine line config with
    | .error failure => .error failure
    | .ok config => parseLines rest config

/-- `LoadClusterConfig`; `file` is the text of the file at `path`, if it can be opened. -/
def loadClusterConfig (path : String) (file : Option Bytes) : Except LoadFailure ClusterConfig :=
  match file with
  | none => .error (.status ⟨.kIOError, "open cluster config: " ++ path⟩)
  | some text =>
    match parseLines (lines text) {} with
    | .error failure => .error failure
    | .ok config => if (validate config).ok then .ok config else .error (.status (validate config))

/-! ## What the file says -/

namespace Directive

/-- The number that is written for `key`. -/
def number (key : Bytes) : Directive → Option Nat
  | .assign key' n => if key' = key then some n else none
  | _ => none

def peerFields : Directive → Option (Int × Bytes × Int)
  | .peer id host port => some (id, host, port)
  | _ => none

end Directive

/-- **The configuration says what the lines say.** -/
structure ClusterConfig.Says (config : ClusterConfig) (lines : List Bytes)
    (ds : List Directive) : Prop where
  lines : List.Forall₂ LineSays lines ds
  nodeId : (ds.filterMap (Directive.number kNodeId)).getLast? = some config.localNodeId
  leaderId : (ds.filterMap (Directive.number kLeaderId)).getLast?.getD 0 = config.leaderNodeId
  peers : config.peers.map (fun p => ((p.nodeId : Int), p.host, (p.port : Int))) =
    ds.filterMap Directive.peerFields
  ids_ne_zero : ∀ p ∈ config.peers, p.nodeId ≠ 0
  ids_nodup : (config.peers.map (·.nodeId)).Nodup
  local_mem : config.localNodeId ∈ config.peers.map (·.nodeId)
  leader_mem : config.leaderNodeId = 0 ∨ config.leaderNodeId ∈ config.peers.map (·.nodeId)

/-- An accepted text is told as it is and has no number that does not fit its field; any other text
is rejected with an error. -/
def LoadFaithful (path : String) (text : Bytes) : Prop :=
  match loadClusterConfig path (some text) with
  | .ok config => (∃ ds, config.Says (lines text) ds) ∧
      ∀ line ∈ lines text, ∀ d, LineSays line d → d.Fits
  | .error (.status status) => status.ok = false
  | .error .outOfRange => False

namespace Directive

/-- The number of a `key=value` line is within the field that it is for; behind a key that
`ParseLine` does not know, within `unsigned long`.  The numbers of peer lines are of any size. -/
def Bounded : Directive → Prop
  | .assign key n => if key = kNodeId ∨ key = kLeaderId then n < 2 ^ 32 else n < 2 ^ 64
  | _ => True

end Directive

/-- The numbers of the `key=value` lines are bounded. -/
def BoundedText (text : Bytes) : Prop := ∀ line ∈ lines text, ∀ d, LineSays line d → d.Bounded

theorem Directive.Bounded.lt {key : Bytes} {n : Nat} (h : (Directive.assign key n).Bounded) :
    n < 2 ^ 64 := by
  rw [Directive.Bounded] at h
  split at h <;> omega

theorem Directive.Fits.bounded {d : Directive} (h : d.Fits) : d.Bounded := by
  cases d with
  | nothing => trivial
  | peer id host port => trivial
  | assign key n =>
    have hn : n ≤ 0xFFFFFFFF := h
    rw [Directive.Bounded]
    split <;> omega

/-- `ParseLine` takes a bounded number only if it fits. -/
theorem Directive.Bounded.fits {d : Directive} (h : d.Bounded) (hacc : d.Accepted) : d.Fits := by
  cases d with
  | nothing => trivial
  | peer id host port => exact hacc
  | assign key n =>
    rw [Directive.Bounded, if_pos hacc.2] at h
    exact Nat.le_of_lt_succ h

/-! ## All lines -/

/-- **When the loop comes to the end of the file**, and with which configuration. -/
theorem parseLines_ok_iff {lines : List Bytes} :
    ∀ {config config' : ClusterConfig}, parseLines lines config = .ok config' ↔
      ∃ ds, List.Forall₂ LineSays lines ds ∧ (∀ d ∈ ds, d.Accepted) ∧
        config' = ds.foldl Directive.enter config := by
  induction lines with
  | nil =>
    intro config config'
    constructor
    · intro h
      cases h
      exact ⟨[], .nil, by simp, rfl⟩
    · rintro ⟨ds, hds, _, rfl⟩
      cases hds
      rfl
  | cons line lines ih =>
    intro config config'
    constructor
    · intro h
      unfold parseLines at h
      split at h
      · cases h
      · rename_i next hline
        obtain ⟨d, hsaid, hacc, rfl⟩ := parseLine_ok_iff.mp hline
        obtain ⟨ds, hds, haccs, rfl⟩ := ih.mp h
        exact ⟨d :: ds, .cons hsaid hds, List.forall_mem_cons.mpr ⟨hacc, haccs⟩, rfl⟩
    · rintro ⟨ds, hds, haccs, rfl⟩
      cases hds with
      | cons hsaid hds =>
        obtain ⟨hacc, haccs⟩ := List.forall_mem_cons.mp haccs
        rw [parseLines, parseLine_ok_iff.mpr ⟨_, hsaid, hacc, rfl⟩]
        exact ih.mpr ⟨_, hds, haccs, rfl⟩

/-- **When the loop throws**: at a line whose number is too large, after lines that are all
accepted. -/
theorem parseLines_outOfRange_iff {lines : List Bytes} :
    ∀ {config : ClusterConfig}, parseLines lines config = .error .outOfRange ↔
      ∃ before line after, lines = before ++ line :: after ∧
        (∀ l ∈ before, ∃ d, LineSays l d ∧ d.Accepted) ∧
        ∃ key n, LineSays line (.assign key n) ∧ 2 ^ 64 ≤ n := by
  induction lines with
  | nil =>
    intro config
    constructor
    · intro h
      cases h
    · rintro ⟨before, line, after, heq, _⟩
      exact absurd heq (by simp)
  | cons line lines ih =>
    intro config
    constructor
    · intro h
      unfold parseLines at h
      split at h
      · rename_i failure hline
        cases h
        exact ⟨[], line, lines, rfl, by simp, parseLine_outOfRange_iff.mp hline⟩
      · rename_i next hline
        obtain ⟨d, hsaid, hacc, _⟩ := parseLine_ok_iff.mp hline
        obtain ⟨before, l, after, rfl, hbefore, hl⟩ := ih.mp h
        exact ⟨line :: before, l, after, rfl,
          List.forall_mem_cons.mpr ⟨⟨d, hsaid, hacc⟩, hbefore⟩, hl⟩
    · rintro ⟨before, l, after, heq, hbefore, hl⟩
      cases before with
      | nil =>
        obtain ⟨rfl, rfl⟩ := List.cons.inj heq
        rw [parseLines, parseLine_outOfRange_iff.mpr hl]
      | cons b before =>
        obtain ⟨rfl, rfl⟩ := List.cons.inj heq
        obtain ⟨⟨d, hsaid, hacc⟩, hbefore⟩ := List.forall_mem_cons.mp hbefore
        rw [parseLines, parseLine_ok_iff.mpr ⟨d, hsaid, hacc, rfl⟩]
        exact ih.mpr ⟨before, l, after, rfl, hbefore, hl⟩

theorem parseLines_status {lines : List Bytes} {status : Status} :
    ∀ {config : ClusterConfig}, parseLines lines config = .error (.status status) →
      status.ok = false := by
  induction lines with
  | nil =>
    intro config h
    cases h
  | cons line lines ih =>
    intro config h
    unfold parseLines at h
    split at h
    · rename_i failure hline
      cases h
      exact parseLine_status hline
    · exact ih h

/-! ## The configuration that is read -/

section Entered

variable {ds : List Directive}

/-- A number that fits is entered as it is. -/
theorem enter_numbers {d : Directive} (hd : d.Fits) (config : ClusterConfig) :
    (d.enter config).localNodeId = (d.number kNodeId).getD config.localNodeId ∧
      (d.enter config).leaderNodeId = (d.number kLeaderId).getD config.leaderNodeId := by
  cases d with
  | nothing => exact ⟨rfl, rfl⟩
  | peer id host port => exact ⟨rfl, rfl⟩
  | assign key n =>
    have hmod : n % 2 ^ 32 = n := Nat.mod_eq_of_lt (Nat.lt_succ_of_le hd)
    simp only [Directive.number]
    by_cases hnode : key = kNodeId
    · subst hnode
      rw [enter_nodeId, hmod, if_pos rfl, if_neg kLeaderId_ne_kNodeId.symm]
      exact ⟨rfl, rfl⟩
    · by_cases hleader : key = kLeaderId
      · subst hleader
        rw [enter_leaderId, hmod, if_pos rfl, if_neg kLeaderId_ne_kNodeId]
        exact ⟨rfl, rfl⟩
      · rw [if_neg hnode, if_neg hleader, Directive.enter, if_neg hnode, if_neg hleader]
        exact ⟨rfl, rfl⟩

/-- The last of several numbers is the one that stays. -/
theorem getLast_number (f : Directive → Option Nat) (d : Directive) :
    ((ds ++ [d]).filterMap f).getLast?.getD 0 =
      (f d).getD ((ds.filterMap f).getLast?.getD 0) := by
  rw [List.filterMap_append, List.getLast?_append]
  cases hf : f d with
  | none => simp [hf]
  | some n => simp [hf]

theorem entered_numbers (hfits : ∀ d ∈ ds, d.Fits) :
    (ds.foldl Directive.enter {}).localNodeId =
        (ds.filterMap (Directive.number kNodeId)).getLast?.getD 0 ∧
      (ds.foldl Directive.enter {}).leaderNodeId =
        (ds.filterMap (Directive.number kLeaderId)).getLast?.getD 0 := by
  induction ds using List.reverseRecOn with
  | nil => exact ⟨rfl, rfl⟩
  | append_singleton ds d ih =>
    obtain ⟨hlocal, hleader⟩ := ih fun d hd => hfits d (List.mem_append_left _ hd)
    obtain ⟨hlocal', hleader'⟩ :=
      enter_numbers (hfits d (by simp)) (ds.foldl Directive.enter {})
    rw [getLast_number, getLast_number, List.foldl_append]
    exact ⟨hlocal'.trans (by rw [hlocal]), hleader'.trans (by rw [hleader])⟩

/-- The peers are those of the peer lines. -/
theorem entered_peers (hfits : ∀ d ∈ ds, d.Fits) :
    (ds.foldl Directive.enter {}).peers.map
        (fun p => ((p.nodeId : Int), p.host, (p.port : Int))) =
      ds.filterMap Directive.peerFields := by
  induction ds using List.reverseRecOn with
  | nil => rfl
  | append_singleton ds d ih =>
    rw [List.filterMap_append, ← ih fun d hd => hfits d (List.mem_append_left _ hd),
      List.foldl_append]
    have hd := hfits d (by simp)
    cases d with
    | nothing => simp [Directive.enter, Directive.peerFields]
    | assign key n =>
      have hpeers : ∀ config, ((Directive.assign key n).enter config).peers = config.peers := by
        intro config
        rw [Directive.enter]
        split
        · rfl
        · split <;> rfl
      simp [Directive.peerFields, hpeers]
    | peer id host port =>
      obtain ⟨hid, hport⟩ := hd
      have hid' : ((id.toNat % 2 ^ 32 : Nat) : Int) = id := by omega
      have hport' : ((port.toNat % 2 ^ 16 : Nat) : Int) = port := by omega
      simp only [List.foldl_cons, List.foldl_nil, Directive.enter, List.map_append, List.map_cons,
        List.map_nil, hid', hport']
      rfl

end Entered

/-! ## Loading -/

section Loading

variable {path : String} {text : Bytes}

theorem loadClusterConfig_ok_iff {config : ClusterConfig} :
    loadClusterConfig path (some text) = .ok config ↔
      validate config = .Ok ∧ ∃ ds, List.Forall₂ LineSays (lines text) ds ∧
        (∀ d ∈ ds, d.Accepted) ∧ config = ds.foldl Directive.enter {} := by
  unfold loadClusterConfig
  constructor
  · intro h
    simp only at h
    split at h
    · cases h
    · rename_i parsed hparsed
      split at h
      · rename_i hvalid
        cases h
        exact ⟨(validate_ok_eq _).mp hvalid, parseLines_ok_iff.mp hparsed⟩
      · cases h
  · rintro ⟨hvalid, hparsed⟩
    simp only [parseLines_ok_iff.mpr hparsed]
    exact if_pos ((validate_ok_eq config).mpr hvalid)

theorem loadClusterConfig_outOfRange_iff :
    loadClusterConfig path (some text) = .error .outOfRange ↔
      ∃ before line after, lines text = before ++ line :: after ∧
        (∀ l ∈ before, ∃ d, LineSays l d ∧ d.Accepted) ∧
        ∃ key n, LineSays line (.assign key n) ∧ 2 ^ 64 ≤ n := by
  unfold loadClusterConfig
  constructor
  · intro h
    simp only at h
    split at h
    · rename_i failure hfail
      cases h
      exact parseLines_outOfRange_iff.mp hfail
    · split at h
      · cases h
      · cases h
  · intro h
    simp only [parseLines_outOfRange_iff.mpr h]

theorem loadClusterConfig_status {status : Status}
    (h : loadClusterConfig path (some text) = .error (.status status)) : status.ok = false := by
  unfold loadClusterConfig at h
  simp only at h
  split at h
  · rename_i failure hfail
    cases h
    exact parseLines_status hfail
  · split at h
    · cases h
    · rename_i hbad
      cases h
      exact Bool.eq_false_iff.mpr hbad

/-- **An accepted configuration says what the lines say** if the numbers fit. -/
theorem ClusterConfig.says_entered {ls : List Bytes} {ds : List Directive}
    (hds : List.Forall₂ LineSays ls ds) (hfits : ∀ d ∈ ds, d.Fits)
    (hvalid : validate (ds.foldl Directive.enter {}) = .Ok) :
    (ds.foldl Directive.enter {}).Says ls ds := by
  obtain ⟨hlocal, hleader⟩ := entered_numbers hfits
  have hpeers := entered_peers hfits
  obtain ⟨hne, hnodup, hmem, hmem'⟩ := (validate_ok_iff _).mp hvalid
  refine ⟨hds, ?_, hleader.symm, hpeers, ?_, hnodup, hmem, hmem'⟩
  · -- without a `node_id` line the id would be 0
    rw [hlocal] at hne ⊢
    cases hlast : (ds.filterMap (Directive.number kNodeId)).getLast? with
    | none =>
      rw [hlast] at hne
      exact absurd rfl hne
    | some n => rfl
  · intro p hp
    have hfield := List.mem_map_of_mem (f := fun p : PeerInfo =>
      ((p.nodeId : Int), p.host, (p.port : Int))) hp
    rw [hpeers] at hfield
    obtain ⟨d, hd, hfields⟩ := List.mem_filterMap.mp hfield
    cases d with
    | nothing => cases hfields
    | assign _ _ => cases hfields
    | peer id host port =>
      have hpos : 0 < id := (hfits _ hd).1.1
      cases hfields
      exact Int.natCast_pos.mp hpos |>.ne'

/-- **Why the bounds are not necessary**: a file with a number beyond them is rejected for another
fault, or it is not told as it is. -/
theorem load_faithful_iff_rejected (path : String) (htext : ¬ BoundedText text) :
    LoadFaithful path text ↔
      ∃ status, loadClusterConfig path (some text) = .error (.status status) := by
  unfold LoadFaithful
  constructor
  · intro h
    cases hload : loadClusterConfig path (some text) with
    | ok config =>
      rw [hload] at h
      exact absurd (fun line hline d hsaid => (h.2 line hline d hsaid).bounded) htext
    | error failure =>
      cases failure with
      | status status => exact ⟨status, rfl⟩
      | outOfRange =>
        rw [hload] at h
        exact h.elim
  · rintro ⟨status, hload⟩
    rw [hload]
    exact loadClusterConfig_status hload

/-- Node 4294967298 is rejected, since node 2 is not among the peers. -/
example : loadClusterConfig "cluster.conf"
    (some (ascii "node_id=4294967298\npeer 1 127.0.0.1 7401\n")) =
      .error (.malformed "local node_id is not in the peer list") := by decide +kernel

end Loading

/-- The config of node 4294967297, with node 1 among its peers. -/
def wrappedConfig : Bytes := ascii "node_id=4294967297\npeer 1 127.0.0.1 7401\n"

/-- A number that `std::stoul` cannot return ends the process. -/
example : loadClusterConfig "cluster.conf"
    (some (ascii "node_id=18446744073709551616\npeer 1 127.0.0.1 7401\n")) =
      .error .outOfRange := by decide +kernel

end NeuralKV
