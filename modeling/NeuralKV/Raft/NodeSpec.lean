import NeuralKV.Lib.ConsensusSafety
import NeuralKV.Raft.Node

/-!
# What each lock scope of a node does

One specification lemma for each function of `NeuralKV.Raft.Node`:

* `PeerMap` — reading back what was put;
* `appendLoop_spec` — on a contiguous log the loop of `HandleAppendEntries` is the scan
  `Consensus.overwrite`, and the log stays contiguous;
* `applyLoop_eq` — `ApplyCommittedEntriesLocked` applies exactly the entries after
  `last_applied_index` up to `commit_index_`;
* `advanceCommitIndex_cases` — the commit index moves only to an index of the current term that
  a majority of the match indices reach;
* `handleRequestVote_cases`, `handleAppendEntries_cases`, `replicateReply_cases`,
  `voteReply_cases`, `confirmReply_cases` — the branches of the handlers;
* `restart_spec` — a restart keeps term, vote and log.
-/

set_option autoImplicit false

namespace NeuralKV

open Consensus

/-- Term label of an entry. -/
abbrev entryTerm : LogEntry → Nat := WalRecord.term

/-! ## Maps keyed by peer id -/

namespace PeerMap

theorem keys_put {id : NodeId} {v : Nat} :
    ∀ {m : PeerMap}, id ∈ m.map (·.1) → (m.put id v).map (·.1) = m.map (·.1)
  | [], h => by simp at h
  | p :: m, h => by
    unfold put
    split
    · rename_i hp
      simp [hp]
    · rename_i hp
      rw [List.map_cons, List.mem_cons] at h
      have hm : id ∈ m.map (·.1) := h.resolve_left (Ne.symm hp)
      rw [List.map_cons, List.map_cons, keys_put hm]

theorem mem_put {id : NodeId} {v : Nat} {p : NodeId × Nat} :
    ∀ {m : PeerMap}, p ∈ m.put id v → p = (id, v) ∨ p ∈ m
  | [], h => Or.inl (List.mem_singleton.mp h)
  | q :: m, h => by
    unfold put at h
    split at h
    · rcases List.mem_cons.mp h with h | h
      · exact Or.inl h
      · exact Or.inr (List.mem_cons_of_mem _ h)
    · rcases List.mem_cons.mp h with h | h
      · exact Or.inr (h ▸ List.mem_cons_self)
      · exact (mem_put h).imp_right (List.mem_cons_of_mem _)

theorem keys_put_nodup {id : NodeId} {v : Nat} :
    ∀ {m : PeerMap}, (m.map (·.1)).Nodup → ((m.put id v).map (·.1)).Nodup
  | [], _ => List.nodup_singleton id
  | p :: m, h => by
    obtain ⟨hp, hm⟩ := List.nodup_cons.mp h
    unfold put
    split
    · rename_i heq
      rw [← heq]
      exact h
    · rename_i hne
      refine List.nodup_cons.mpr ⟨fun hmem => ?_, keys_put_nodup hm⟩
      obtain ⟨q, hq, hkey⟩ := List.mem_map.mp hmem
      rcases mem_put hq with rfl | hq
      · exact hne hkey.symm
      · exact hp (List.mem_map.mpr ⟨q, hq, hkey⟩)

theorem valueAt_put_self {id : NodeId} {v : Nat} : ∀ (m : PeerMap), (m.put id v).valueAt id = v
  | [] => by simp [put, valueAt]
  | p :: m => by
    unfold put
    split
    · simp [valueAt]
    · rename_i hp
      simpa [valueAt, hp] using valueAt_put_self (v := v) m

theorem valueAt_put_of_ne {id k : NodeId} {v : Nat} (hk : k ≠ id) :
    ∀ {m : PeerMap}, (m.put id v).valueAt k = m.valueAt k
  | [] => by simp [put, valueAt, Ne.symm hk]
  | p :: m => by
    have ih := valueAt_put_of_ne (v := v) hk (m := m)
    unfold put
    split
    · rename_i hp
      simp [valueAt, hp, Ne.symm hk]
    · unfold valueAt at ih ⊢
      by_cases hpk : p.1 = k
      · simp [hpk]
      · simpa [hpk] using ih

theorem valueAt_map {c : Nat} {id : NodeId} :
    ∀ {ids : List NodeId}, id ∈ ids → valueAt (ids.map fun k => (k, c)) id = c
  | [], h => by simp at h
  | k :: ids, h => by
    by_cases hk : k = id
    · simp [valueAt, hk]
    · have ih := valueAt_map (c := c) ((List.mem_cons.mp h).resolve_left (Ne.symm hk))
      simpa [valueAt, hk] using ih

end PeerMap

/-! ## Log positions -/

/-- The entries carry the indices that follow `p`. -/
def NumberedFrom (p : Nat) (entries : List LogEntry) : Prop :=
  ∀ i e, entries[i]? = some e → e.index = p + i + 1

theorem NumberedFrom.tail {p : Nat} {e : LogEntry} {es : List LogEntry}
    (h : NumberedFrom p (e :: es)) : NumberedFrom (p + 1) es := by
  intro i a ha
  have := h (i + 1) a (by simpa using ha)
  omega

theorem NumberedFrom.head {p : Nat} {e : LogEntry} {es : List LogEntry}
    (h : NumberedFrom p (e :: es)) : e.index = p + 1 := h 0 e rfl

/-- A segment of a numbered list. -/
theorem NumberedFrom.of_segment {l es : List LogEntry} {p : Nat} (h : Numbered l)
    (hes : (l.drop p).take es.length = es) : NumberedFrom p es := by
  intro i e he
  have hi := (List.getElem?_eq_some_iff.mp he).1
  rw [← hes, List.getElem?_take_of_lt hi, List.getElem?_drop] at he
  exact h (p + i) e he

theorem Log.lastTerm_eq (log : Log) : log.lastTerm = Consensus.lastTerm entryTerm log.entries := rfl

/-- Appending an entry that carries its own position. -/
theorem Log.append_entries_self {log : Log} (h : log.Contiguous) {e : LogEntry}
    (he : e.index = log.entries.length + 1) : (log.append e).entries = log.entries ++ [e] := by
  rw [Log.append_entries log h, ← he]

namespace RaftNode

/-- Behind the end of the log the loop only appends. -/
theorem appendLoop_at_end :
    ∀ {es : List LogEntry} {log : Log} {p : Nat}, log.Contiguous → p = log.entries.length →
      NumberedFrom p es →
      (appendLoop log p es).entries = log.entries ++ es ∧ (appendLoop log p es).Contiguous
  | [], log, p, hc, _, _ => by simpa [appendLoop] using hc
  | e :: es, log, p, hc, hp, hes => by
    have hget : log.get (p + 1) = none := by
      rw [hc.get_eq (by omega)]
      exact List.getElem?_eq_none (by omega)
    have happ := Log.append_entries_self hc (e := e) (by have := hes.head; omega)
    unfold appendLoop
    rw [hget]
    have ih := appendLoop_at_end (p := p + 1) (Log.append_contiguous hc e)
      (by rw [happ, List.length_append, List.length_singleton]; omega) hes.tail
    simp only
    rw [ih.1, happ]
    exact ⟨by simp, ih.2⟩

/-- **The loop of `HandleAppendEntries` is the receiver's scan.** -/
theorem appendLoop_spec :
    ∀ {es : List LogEntry} {log : Log} {p : Nat}, log.Contiguous → p ≤ log.entries.length →
      NumberedFrom p es →
      (appendLoop log p es).entries = overwrite entryTerm log.entries p es ∧
        (appendLoop log p es).Contiguous
  | [], log, p, hc, _, _ => by simpa [appendLoop, overwrite] using hc
  | e :: es, log, p, hc, hp, hes => by
    have hget : log.get (p + 1) = log.entries[p]? := hc.get_eq (by omega)
    unfold appendLoop overwrite
    rw [hget]
    cases hl : log.entries[p]? with
    | none =>
      have hlen := List.getElem?_eq_none_iff.mp hl
      have hend := appendLoop_at_end hc (Nat.le_antisymm hp hlen) hes
      unfold appendLoop at hend
      rw [hget, hl] at hend
      exact hend
    | some a =>
      have hlt := (List.getElem?_eq_some_iff.mp hl).1
      simp only [entryTerm]
      by_cases hterm : a.term = e.term
      · rw [if_pos hterm, if_pos hterm]
        exact appendLoop_spec hc (by omega) hes.tail
      · rw [if_neg hterm, if_neg hterm]
        -- the conflicting suffix is cut off, so the rest is appended behind the end
        have hcut := Log.truncateFrom_entries hc p
        have hcutc := Log.truncateFrom_contiguous hc p
        have hlen : (log.truncateFrom (p + 1)).entries.length = p := by
          rw [hcut, List.length_take]; omega
        have happ := Log.append_entries_self hcutc (e := e) (by have := hes.head; omega)
        have hrest := appendLoop_at_end (p := p + 1) (Log.append_contiguous hcutc e)
          (by rw [happ, List.length_append, List.length_singleton]; omega) hes.tail
        rw [hrest.1, happ, hcut]
        exact ⟨by simp, hrest.2⟩

/-- **The log after an accepted piece of another log**: the two logs match, and the entry in front
of the piece has the same term in both. -/
theorem appendLoop_spliced {log : Log} {T es : List LogEntry} {p : Nat} (hc : log.Contiguous)
    (hT : Numbered T) (hmatch : LogsMatch entryTerm log.entries T)
    (hp : 0 < p → ∃ a b, log.entries[p - 1]? = some a ∧ T[p - 1]? = some b ∧ a.term = b.term)
    (hes : (T.drop p).take es.length = es) :
    Spliced entryTerm log.entries (T.take (p + es.length)) (appendLoop log p es).entries ∧
      (appendLoop log p es).Contiguous := by
  -- the two logs agree up to `prev_log_index`
  have hcommon : log.entries.take p = T.take p ∧ p ≤ log.entries.length ∧ p ≤ T.length := by
    by_cases h0 : p = 0
    · rw [h0]; simp
    · obtain ⟨a, b, ha, hb, hab⟩ := hp (by omega)
      have hlt := (List.getElem?_eq_some_iff.mp ha).1
      have hltT := (List.getElem?_eq_some_iff.mp hb).1
      have htake := hmatch _ a b ha hb hab
      rw [Nat.sub_add_cancel (by omega)] at htake
      exact ⟨htake, by omega, by omega⟩
  obtain ⟨htake, hle, hleT⟩ := hcommon
  obtain ⟨hentries, hcont⟩ := appendLoop_spec hc hle (NumberedFrom.of_segment hT hes)
  refine ⟨?_, hcont⟩
  have hsplice := overwrite_spliced (hmatch.of_isPrefix (List.take_prefix (p + es.length) T))
    _ p rfl (by rw [List.length_take]; omega)
    (by rw [List.take_take, Nat.min_eq_left (Nat.le_add_right _ _)]; exact htake)
  rw [List.drop_take, Nat.add_sub_cancel_left, hes] at hsplice
  rw [hentries]
  exact hsplice

/-! ## Applying -/

/-- **`ApplyCommittedEntriesLocked` applies the entries after `last_applied_index` up to
`commit_index_`, in order.** -/
theorem applyLoop_eq {log : Log} (hc : log.Contiguous) (commit : Nat) :
    ∀ (fuel : Nat) (st : Storage), commit - st.lastAppliedIndex ≤ fuel →
      applyLoop log commit fuel st =
        { kv := replay st.kv
            ((log.entries.drop st.lastAppliedIndex).take (commit - st.lastAppliedIndex))
          lastAppliedIndex := max st.lastAppliedIndex (min commit log.entries.length)
          applied := st.applied ++
            (log.entries.drop st.lastAppliedIndex).take (commit - st.lastAppliedIndex) }
  | 0, st, h => by
    have hz : commit - st.lastAppliedIndex = 0 := by omega
    have hmax : max st.lastAppliedIndex (min commit log.entries.length) = st.lastAppliedIndex := by
      omega
    simp [applyLoop, hz, hmax, replay]
  | fuel + 1, st, h => by
    unfold applyLoop
    split
    · rename_i hlt
      rw [hc.get_eq (by omega), Nat.add_sub_cancel]
      cases hl : log.entries[st.lastAppliedIndex]? with
      | none =>
        have hlen := List.getElem?_eq_none_iff.mp hl
        have hmax : max st.lastAppliedIndex (min commit log.entries.length) =
            st.lastAppliedIndex := by omega
        simp [List.drop_eq_nil_of_le hlen, hmax, replay]
      | some e =>
        obtain ⟨hi, he⟩ := List.getElem?_eq_some_iff.mp hl
        have hidx := hc.numbered _ e hl
        have hsub : commit - st.lastAppliedIndex = commit - (st.lastAppliedIndex + 1) + 1 := by
          omega
        have hmax : max (st.lastAppliedIndex + 1) (min commit log.entries.length) =
            max st.lastAppliedIndex (min commit log.entries.length) := by omega
        show applyLoop log commit fuel (st.applyCommitted e) = _
        rw [applyLoop_eq hc commit fuel (st.applyCommitted e)
          (by simp only [Storage.applyCommitted]; omega)]
        simp only [Storage.applyCommitted, hidx]
        rw [List.drop_eq_getElem_cons hi, hsub, List.take_succ_cons, he, hmax]
        simp [replay]
    · rename_i hge
      have hz : commit - st.lastAppliedIndex = 0 := by omega
      have hmax : max st.lastAppliedIndex (min commit log.entries.length) =
          st.lastAppliedIndex := by omega
      simp [hz, hmax, replay]

theorem applyCommittedEntries_storage {node : RaftNode} (hc : node.log.Contiguous) :
    node.applyCommittedEntries.storage =
      { kv := replay node.storage.kv
          ((node.log.entries.drop node.storage.lastAppliedIndex).take
            (node.commitIndex - node.storage.lastAppliedIndex))
        lastAppliedIndex :=
          max node.storage.lastAppliedIndex (min node.commitIndex node.log.entries.length)
        applied := node.storage.applied ++
          (node.log.entries.drop node.storage.lastAppliedIndex).take
            (node.commitIndex - node.storage.lastAppliedIndex) } :=
  applyLoop_eq hc _ _ _ (Nat.le_refl _)

/-! ## Branches of the handlers -/

/-- A node after it has seen `term`: unchanged, or a follower of the newer term. -/
def observeTerm (node : RaftNode) (term : Nat) : RaftNode :=
  if node.currentTerm < term then node.becomeFollower term else node

theorem observeTerm_cases (node : RaftNode) (term : Nat) :
    (term ≤ node.currentTerm ∧ node.observeTerm term = node) ∨
      (node.currentTerm < term ∧ node.observeTerm term = node.becomeFollower term) := by
  unfold observeTerm
  split
  · exact Or.inr ⟨‹_›, rfl⟩
  · exact Or.inl ⟨by omega, rfl⟩

theorem handleRequestVote_cases (node : RaftNode) (req : RequestVoteRequest) :
    node.handleRequestVote req =
        (node.observeTerm req.term, ⟨(node.observeTerm req.term).currentTerm, false⟩) ∨
      ((node.observeTerm req.term).currentTerm = req.term ∧
        ((node.observeTerm req.term).votedFor = 0 ∨
          (node.observeTerm req.term).votedFor = req.candidateId) ∧
        (node.observeTerm req.term).challengerUpToDate req = true ∧
        node.handleRequestVote req =
          (persistState { node.observeTerm req.term with votedFor := req.candidateId },
            ⟨(node.observeTerm req.term).currentTerm, true⟩)) := by
  have hle : req.term ≤ (node.observeTerm req.term).currentTerm := by
    rcases node.observeTerm_cases req.term with ⟨h₁, h₂⟩ | ⟨h₁, h₂⟩
    · rw [h₂]; exact h₁
    · rw [h₂]; exact Nat.le_refl _
  unfold handleRequestVote
  simp only
  rw [show (if node.currentTerm < req.term then node.becomeFollower req.term else node) =
    node.observeTerm req.term from rfl]
  split
  · exact Or.inl rfl
  · split
    · rename_i h₁ h₂
      exact Or.inr ⟨by omega, h₂.1, h₂.2, rfl⟩
    · exact Or.inl rfl

theorem acceptLeader_cases (node : RaftNode) (req : AppendEntriesRequest) :
    (req.term ≤ node.currentTerm ∧ node.state ≠ .kCandidate ∧
        node.acceptLeader req = { node with leaderId := req.leaderId }) ∨
      (req.term ≤ node.currentTerm ∧ node.state = .kCandidate ∧
        node.acceptLeader req = { node with state := .kFollower, leaderId := req.leaderId }) ∨
      (node.currentTerm < req.term ∧
        node.acceptLeader req =
          { node.becomeFollower req.term with leaderId := req.leaderId }) := by
  unfold acceptLeader
  simp only
  split
  · exact Or.inr (Or.inr ⟨‹_›, rfl⟩)
  · split
    · exact Or.inr (Or.inl ⟨by omega, ‹_›, rfl⟩)
    · exact Or.inl ⟨by omega, ‹_›, rfl⟩

/-- What the head of `HandleAppendEntries` leaves alone. -/
theorem acceptLeader_fields (node : RaftNode) (req : AppendEntriesRequest) :
    (node.acceptLeader req).log = node.log ∧ (node.acceptLeader req).storage = node.storage ∧
      (node.acceptLeader req).commitIndex = node.commitIndex := by
  rcases node.acceptLeader_cases req with ⟨_, _, h⟩ | ⟨_, _, h⟩ | ⟨_, h⟩ <;> rw [h] <;>
    exact ⟨rfl, rfl, rfl⟩

theorem acceptLeader_term {node : RaftNode} {req : AppendEntriesRequest}
    (h : node.currentTerm ≤ req.term) : (node.acceptLeader req).currentTerm = req.term := by
  rcases node.acceptLeader_cases req with ⟨h₁, _, h₂⟩ | ⟨h₁, _, h₂⟩ | ⟨h₁, h₂⟩ <;> rw [h₂]
  · exact Nat.le_antisymm h h₁
  · exact Nat.le_antisymm h h₁
  · rfl

theorem handleAppendEntries_cases (node : RaftNode) (req : AppendEntriesRequest) :
    (req.term < node.currentTerm ∧
        node.handleAppendEntries req = (node, ⟨node.currentTerm, false⟩)) ∨
      (node.currentTerm ≤ req.term ∧
        node.handleAppendEntries req =
          (node.acceptLeader req, ⟨(node.acceptLeader req).currentTerm, false⟩)) ∨
      (node.currentTerm ≤ req.term ∧ (node.acceptLeader req).prevMismatch req = false ∧
        node.handleAppendEntries req =
          (({ node.acceptLeader req with
              log := appendLoop node.log req.prevLogIndex req.entries } : RaftNode).followCommit
                req.leaderCommit,
            ⟨(node.acceptLeader req).currentTerm, true⟩)) := by
  unfold handleAppendEntries
  split
  · exact Or.inl ⟨‹_›, rfl⟩
  · simp only
    split
    · exact Or.inr (Or.inl ⟨by omega, rfl⟩)
    · rename_i h₁ h₂
      refine Or.inr (Or.inr ⟨by omega, by simpa using h₂, ?_⟩)
      rw [(node.acceptLeader_fields req).1]

/-- The log has an entry of the leader's term in front of the entries, or they start at 1. -/
def HasPrev (node : RaftNode) (req : AppendEntriesRequest) : Prop :=
  req.prevLogIndex = 0 ∨
    ∃ e, node.log.entries[req.prevLogIndex - 1]? = some e ∧ e.term = req.prevLogTerm

theorem HasPrev.le {node : RaftNode} {req : AppendEntriesRequest} (h : node.HasPrev req) :
    req.prevLogIndex ≤ node.log.entries.length := by
  rcases h with h0 | ⟨e, he, _⟩
  · omega
  · have := (List.getElem?_eq_some_iff.mp he).1
    omega

/-- What the check on `prev_log_index` checks. -/
theorem prevMismatch_eq_false_iff {node : RaftNode} {req : AppendEntriesRequest}
    (hc : node.log.Contiguous) : node.prevMismatch req = false ↔ node.HasPrev req := by
  unfold prevMismatch HasPrev
  by_cases h0 : 0 < req.prevLogIndex
  · have hne : req.prevLogIndex ≠ 0 := by omega
    rw [hc.get_eq h0]
    cases node.log.entries[req.prevLogIndex - 1]? with
    | none => simp [h0, hne]
    | some e => simp [h0, hne]
  · have hzero : req.prevLogIndex = 0 := by omega
    simp [hzero]

theorem prevMismatch_acceptLeader (node : RaftNode) (req : AppendEntriesRequest) :
    (node.acceptLeader req).prevMismatch req = node.prevMismatch req := by
  unfold prevMismatch
  rw [(node.acceptLeader_fields req).1]

/-- The check on `prev_log_index` has passed. -/
theorem hasPrev_of_accepted {node : RaftNode} {req : AppendEntriesRequest}
    (hc : node.log.Contiguous) (h : (node.acceptLeader req).prevMismatch req = false) :
    node.HasPrev req :=
  (prevMismatch_eq_false_iff hc).mp ((node.prevMismatch_acceptLeader req).symm.trans h)

theorem followCommit_cases (node : RaftNode) (leaderCommit : Nat) :
    (leaderCommit ≤ node.commitIndex ∧ node.followCommit leaderCommit = node) ∨
      (node.commitIndex < leaderCommit ∧ node.followCommit leaderCommit =
        applyCommittedEntries { node with commitIndex := min leaderCommit node.log.lastIndex }) := by
  unfold followCommit
  split
  · exact Or.inr ⟨‹_›, rfl⟩
  · exact Or.inl ⟨by omega, rfl⟩

theorem followCommit_fields (node : RaftNode) (leaderCommit : Nat) :
    (node.followCommit leaderCommit).log = node.log ∧
      (node.followCommit leaderCommit).currentTerm = node.currentTerm ∧
      (node.followCommit leaderCommit).commitIndex =
        if node.commitIndex < leaderCommit then min leaderCommit node.log.lastIndex
        else node.commitIndex := by
  unfold followCommit
  split
  · exact ⟨rfl, rfl, rfl⟩
  · exact ⟨rfl, rfl, rfl⟩

/-- **The commit index moves only to an entry of the current term that a majority reaches.** -/
theorem advanceCommitIndex_cases (node : RaftNode) :
    node.advanceCommitIndex = node ∨
      ∃ candidate entry, node.commitIndex < candidate ∧ node.log.get candidate = some entry ∧
        entry.term = node.currentTerm ∧
        Quorum.majority (node.matchIndex.length + 1) ≤
          (node.log.lastIndex :: node.matchIndex.map (·.2)).countP
            (fun x => decide (candidate ≤ x)) ∧
        node.advanceCommitIndex = applyCommittedEntries { node with commitIndex := candidate } := by
  unfold advanceCommitIndex
  simp only
  split
  · exact Or.inl rfl
  · rename_i candidate hcand
    split
    · exact Or.inl rfl
    · split
      · exact Or.inl rfl
      · rename_i hlt entry hget
        split
        · rename_i hterm
          refine Or.inr ⟨candidate, entry, by omega, hget, hterm, ?_, rfl⟩
          have hlen : (node.log.lastIndex :: node.matchIndex.map (·.2)).length =
              node.matchIndex.length + 1 := by simp
          rw [← hlen]
          refine Quorum.le_countP_nthLargest ?_ hcand
          rw [hlen]
          unfold Quorum.majority
          omega
        · exact Or.inl rfl

/-- What moving the commit index leaves alone. -/
theorem advanceCommitIndex_fields (node : RaftNode) :
    node.advanceCommitIndex.log = node.log ∧
      node.advanceCommitIndex.currentTerm = node.currentTerm ∧
      node.advanceCommitIndex.matchIndex = node.matchIndex ∧
      node.advanceCommitIndex.nextIndex = node.nextIndex ∧
      node.advanceCommitIndex.state = node.state := by
  rcases node.advanceCommitIndex_cases with h | ⟨_, _, _, _, _, _, h⟩ <;> rw [h] <;>
    exact ⟨rfl, rfl, rfl, rfl, rfl⟩

/-- The bookkeeping of a successful reply. -/
def recordAck (node : RaftNode) (entries : List LogEntry) (peer : NodeId) (now : Nat) : RaftNode :=
  match entries.getLast? with
  | none => { node with lastAckTime := node.lastAckTime.put peer now }
  | some last =>
    { node with
      lastAckTime := node.lastAckTime.put peer now
      matchIndex := node.matchIndex.put peer last.index
      nextIndex := node.nextIndex.put peer (last.index + 1) }

theorem recordAck_fields (r : RaftNode) (entries : List LogEntry) (peer : NodeId)
    (now : Nat) :
    (r.recordAck entries peer now).commitIndex = r.commitIndex ∧
      (r.recordAck entries peer now).currentTerm = r.currentTerm ∧
      (r.recordAck entries peer now).log = r.log ∧
      (r.recordAck entries peer now).state = r.state ∧
      (r.recordAck entries peer now).storage = r.storage := by
  unfold recordAck
  split <;> exact ⟨rfl, rfl, rfl, rfl, rfl⟩

/-- What entering a reply does to the record of one peer. -/
theorem recordAck_peer (r : RaftNode) (entries : List LogEntry) (peer : NodeId) (now : Nat)
    (id : NodeId) :
    ((r.recordAck entries peer now).nextIndex.valueAt id = r.nextIndex.valueAt id ∧
        (r.recordAck entries peer now).matchIndex.valueAt id = r.matchIndex.valueAt id) ∨
      (id = peer ∧ ∃ last, entries.getLast? = some last ∧
        (r.recordAck entries peer now).nextIndex.valueAt id = last.index + 1 ∧
        (r.recordAck entries peer now).matchIndex.valueAt id = last.index) := by
  unfold recordAck
  cases entries.getLast? with
  | none => exact Or.inl ⟨rfl, rfl⟩
  | some last =>
    by_cases hid : id = peer
    · subst hid
      exact Or.inr ⟨rfl, last, rfl, PeerMap.valueAt_put_self _, PeerMap.valueAt_put_self _⟩
    · exact Or.inl ⟨PeerMap.valueAt_put_of_ne hid, PeerMap.valueAt_put_of_ne hid⟩

/-- A reply that is not stale finds the leader of `term`. -/
theorem leader_of_live {node : RaftNode} {term : Nat}
    (h : ¬ (node.state ≠ .kLeader ∨ node.currentTerm ≠ term)) :
    node.state = .kLeader ∧ node.currentTerm = term :=
  ⟨not_not.mp fun hs => h (Or.inl hs), not_not.mp fun ht => h (Or.inr ht)⟩

/-- A reply of the current term in which the peer refuses the entries. -/
structure Refuses (node : RaftNode) (term : Nat) (resp : AppendEntriesResponse) : Prop where
  live : node.currentTerm = term
  term_le : resp.term ≤ node.currentTerm
  failed : resp.success = false

theorem replicateReply_cases (node : RaftNode) (term : Nat) (entries : List LogEntry)
    (peer : NodeId) (resp : AppendEntriesResponse) (now : Nat) :
    node.replicateReply term entries peer resp now = node ∨
      (node.currentTerm < resp.term ∧
        node.replicateReply term entries peer resp now = node.becomeFollower resp.term) ∨
      (node.state = .kLeader ∧ node.currentTerm = term ∧ resp.success = true ∧
        node.replicateReply term entries peer resp now =
          (node.recordAck entries peer now).advanceCommitIndex) ∨
      (node.state = .kLeader ∧ 1 < node.nextIndex.valueAt peer ∧ node.Refuses term resp ∧
        node.replicateReply term entries peer resp now =
          { node with
            nextIndex := node.nextIndex.put peer (node.nextIndex.valueAt peer - 1) }) := by
  unfold replicateReply
  split
  · exact Or.inl rfl
  · rename_i hlive
    have hst := leader_of_live hlive
    split
    · exact Or.inr (Or.inl ⟨‹_›, rfl⟩)
    · split
      · rename_i hsucc
        refine Or.inr (Or.inr (Or.inl ⟨hst.1, hst.2, hsucc, ?_⟩))
        unfold recordAck
        cases entries.getLast? <;> rfl
      · split
        · rename_i hT hfail hnext
          exact Or.inr (Or.inr (Or.inr ⟨hst.1, hnext, ⟨hst.2, by omega, by simpa using hfail⟩, rfl⟩))
        · exact Or.inl rfl

/-- A positive reply in the term of the call. -/
theorem replicateReply_accepted {node : RaftNode} {term : Nat} {resp : AppendEntriesResponse}
    (hl : node.state = .kLeader) (hterm : node.currentTerm = term) (hle : resp.term ≤ term)
    (hsucc : resp.success = true) (entries : List LogEntry) (peer : NodeId) (now : Nat) :
    node.replicateReply term entries peer resp now =
      (node.recordAck entries peer now).advanceCommitIndex := by
  unfold replicateReply recordAck
  rw [if_neg (by simp [hl, hterm]), if_neg (by omega)]
  refine (if_pos hsucc).trans ?_
  cases entries.getLast? <;> rfl

/-- A refusal in the term of the call. -/
theorem replicateReply_refused {node : RaftNode} {term : Nat} {resp : AppendEntriesResponse}
    (hl : node.state = .kLeader) (hterm : node.currentTerm = term) (hle : resp.term ≤ term)
    (hfail : resp.success = false) {peer : NodeId} (hnext : 1 < node.nextIndex.valueAt peer)
    (entries : List LogEntry) (now : Nat) :
    node.replicateReply term entries peer resp now =
      { node with nextIndex := node.nextIndex.put peer (node.nextIndex.valueAt peer - 1) } := by
  unfold replicateReply
  rw [if_neg (by simp [hl, hterm]), if_neg (by omega), if_neg (by simp [hfail]), if_pos hnext]

theorem voteReply_cases (node : RaftNode) (term votes : Nat) (resp : RequestVoteResponse) :
    node.voteReply term votes resp = (node, none) ∨
      (node.currentTerm < resp.term ∧
        node.voteReply term votes resp = (node.becomeFollower resp.term, none)) ∨
      (resp.voteGranted = true ∧ node.voteReply term votes resp = (node, some (votes + 1))) ∨
      node.voteReply term votes resp = (node, some votes) := by
  unfold voteReply
  split
  · exact Or.inl rfl
  · split
    · exact Or.inr (Or.inl ⟨‹_›, rfl⟩)
    · split
      · exact Or.inr (Or.inr (Or.inl ⟨‹_›, rfl⟩))
      · exact Or.inr (Or.inr (Or.inr rfl))

theorem confirmReply_cases (node : RaftNode) (term acks : Nat) (peer : NodeId)
    (resp : AppendEntriesResponse) (now : Nat) :
    (node.currentTerm < resp.term ∧
        node.confirmReply term acks peer resp now = (node.becomeFollower resp.term, none)) ∨
      node.confirmReply term acks peer resp now = (node, none) ∨
      (resp.success = true ∧ node.state = .kLeader ∧ node.currentTerm = term ∧
        node.confirmReply term acks peer resp now =
          ({ node with lastAckTime := node.lastAckTime.put peer now }, some (acks + 1))) ∨
      (node.state = .kLeader ∧ node.currentTerm = term ∧
        node.confirmReply term acks peer resp now = (node, some acks)) := by
  unfold confirmReply
  split
  · exact Or.inl ⟨‹_›, rfl⟩
  · split
    · exact Or.inr (Or.inl rfl)
    · rename_i hlive
      have hst := leader_of_live hlive
      split
      · exact Or.inr (Or.inr (Or.inl ⟨‹_›, hst.1, hst.2, rfl⟩))
      · exact Or.inr (Or.inr (Or.inr ⟨hst.1, hst.2, rfl⟩))

/-- `Propose` returns `Ok` only for an applied index. -/
theorem proposeResult_ok {node : RaftNode} {index : Nat} {timedOut : Bool}
    (h : node.proposeResult index timedOut = some .Ok) :
    index ≤ node.storage.lastAppliedIndex := by
  unfold proposeResult at h
  split at h
  · split at h
    · cases h
    · omega
  · split at h <;> cases h

/-- A process started on the files of `node`. -/
structure Restarted (node node' : RaftNode) : Prop where
  state : node'.state = .kFollower
  persisted : (⟨node'.currentTerm, node'.votedFor⟩ : PersistentState) =
    loadPersistedState node.stateBin
  stateBin : node'.stateBin = node.stateBin
  entries : node'.log.entries = node.log.entries
  contiguous : node'.log.Contiguous
  commitIndex : node'.commitIndex = 0
  lastAckTime : node'.lastAckTime = []
  storage : node'.storage = Storage.recover node.storage.kv.hash node.log.entries

/-- **A restart finds term, vote and log as they were**, and forgets the rest. -/
theorem restart_spec {node node' : RaftNode} (hc : node.log.Contiguous)
    (h : node.restart = some node') : Restarted node node' := by
  unfold restart at h
  split at h
  · cases h
  · rename_i log hlog
    cases h
    obtain ⟨h₁, h₂⟩ := Log.load_contiguous hc hlog
    exact ⟨rfl, rfl, rfl, h₁, h₂, rfl, rfl, by rw [hc.records]⟩

end RaftNode

end NeuralKV
