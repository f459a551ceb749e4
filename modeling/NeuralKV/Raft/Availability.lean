import NeuralKV.Raft.CommitRule
import NeuralKV.Raft.MajorityElection

/-!
# A majority can always go on

No reachable state of a cluster is a dead end: whatever elections, half-finished calls, crashes and
lost messages lie behind it, the members of a majority that is up can elect a leader among
themselves, bring its log to all of them and commit a new write, without anyone else taking part,
as long as their requests are not too long for a frame.

* `propose` — the leader appends the write and a thread of the handler waits.
* `bring`, `bring_all` — `ReplicateToPeer` until the peer has the whole log.
* `majority_can_commit` — **from every reachable state, a majority that is up can commit a write**
  and acknowledge it.
-/

set_option autoImplicit false

namespace NeuralKV

open Consensus Cluster
open Runs (anyStep exists_run putThread)

/-! ## Committing a write -/

theorem Contact.round_other (config : ClusterConfig) {peer id : NodeId} (hne : id ≠ peer)
    (now : Nat) (c : Contact) :
    (c.round config peer now).1.leader.matchIndex.valueAt id = c.leader.matchIndex.valueAt id ∧
      (c.round config peer now).1.leader.nextIndex.valueAt id = c.leader.nextIndex.valueAt id := by
  unfold round
  cases c.leader.replicateRequest config peer with
  | none => exact ⟨rfl, rfl⟩
  | some req =>
    show (c.leader.replicateReply req.term req.entries peer _ now).matchIndex.valueAt id = _ ∧
      (c.leader.replicateReply req.term req.entries peer _ now).nextIndex.valueAt id = _
    rcases c.leader.replicateReply_cases req.term req.entries peer
      (c.follower.handleAppendEntries req).2 now with h | ⟨_, h⟩ | ⟨_, _, _, h⟩ | ⟨_, _, _, h⟩ <;>
      rw [h]
    · exact ⟨rfl, rfl⟩
    · exact ⟨rfl, rfl⟩
    · obtain ⟨_, _, hmatch, hnext, _⟩ :=
        (c.leader.recordAck req.entries peer now).advanceCommitIndex_fields
      rw [hmatch, hnext]
      rcases c.leader.recordAck_peer req.entries peer now id with ⟨h₁, h₂⟩ | ⟨heq, _⟩
      · exact ⟨h₂, h₁⟩
      · exact absurd heq hne
    · exact ⟨rfl, PeerMap.valueAt_put_of_ne hne⟩

/-- The leader of `Q` has appended `e` as its last entry, and thread `t` waits for it. -/
structure Awaiting (Q : List NodeId) (n : NodeId) (t : Nat) (e : LogEntry) (s : Cluster) :
    Prop where
  heads : Heads Q n s
  term : e.term = (s.servers n).raft.currentTerm
  index : e.index = (s.servers n).raft.log.entries.length
  last : (s.servers n).raft.log.entries.getLast? = some e
  waiting : ∃ w, (s.servers n).writes[t]? = some w ∧ w.stage = .waiting e
  fits : FitsFrame (s.servers n).raft.log.entries

/-- Node `k` has the whole log of `n`, and `n` knows it. -/
structure Matched (n k : NodeId) (s : Cluster) : Prop where
  known : (s.servers n).raft.matchIndex.valueAt k = (s.servers n).raft.log.entries.length
  held : (s.servers n).raft.log.entries <+: (s.servers k).raft.log.entries

/-- Rounds with the peers in `ks` leave the other nodes, and what the leader knows of them. -/
structure Brought (n : NodeId) (ks : List NodeId) (s s' : Cluster) : Prop where
  log : (s'.servers n).raft.log = (s.servers n).raft.log
  others : ∀ j, j ≠ n → j ∉ ks → (s'.servers j).raft = (s.servers j).raft
  known : ∀ j, j ∉ ks →
    (s'.servers n).raft.matchIndex.valueAt j = (s.servers n).raft.matchIndex.valueAt j ∧
      (s'.servers n).raft.nextIndex.valueAt j = (s.servers n).raft.nextIndex.valueAt j
  history : s.history <+: s'.history

section Commit

variable {m : Membership} {hash : Bytes → Nat} {Q : List NodeId} {s : Cluster} {n k : NodeId}
  {t : Nat} {e : LogEntry}

theorem Awaiting.facing (W : Awaiting Q n t e s) (hk : k ∈ Q) :
    Contact.Facing k (s.servers n).raft.currentTerm (s.servers n).raft.log (s.servers k).raft.log
      ((s.servers n).raft.nextIndex.valueAt k) ⟨(s.servers n).raft, (s.servers k).raft⟩ :=
  ⟨W.heads.leads, rfl, rfl, rfl, rfl, W.heads.term k hk⟩

theorem Awaiting.round (W : Awaiting Q n t e s) {s' : Cluster} (R : Rounded m n k s s') {x : Nat}
    {F : Log} (hfacing : Contact.Facing k (s.servers n).raft.currentTerm (s.servers n).raft.log F x
      (Contact.round (m.configOf n) k s.clock ⟨(s.servers n).raft, (s.servers k).raft⟩).1) :
    Awaiting Q n t e s' ∧ Brought n [k] s s' ∧ (s'.servers n).raft.nextIndex.valueAt k = x ∧
      (s'.servers k).raft.log = F := by
  have hlog : (s'.servers n).raft.log = (s.servers n).raft.log := by
    rw [R.leader]
    exact hfacing.log
  have hcur : (s'.servers n).raft.currentTerm = (s.servers n).raft.currentTerm := by
    rw [R.leader]
    exact hfacing.term
  refine ⟨⟨⟨?_, fun j hj => ?_, fun j hj => (R.up j).trans (W.heads.up j hj)⟩, ?_, ?_, ?_, ?_,
      hlog ▸ W.fits⟩,
    ⟨hlog, fun j hjn hjk => ?_, fun j hjk => ?_, R.history⟩, ?_, ?_⟩
  · rw [R.leader]
    exact hfacing.leads
  · rw [hcur]
    by_cases hjn : j = n
    · rw [hjn, hcur]
    · by_cases hjk : j = k
      · rw [hjk, R.follower]
        exact hfacing.follower_term
      · rw [R.others j hjn hjk]
        exact W.heads.term j hj
  · rw [hcur]
    exact W.term
  · rw [hlog]
    exact W.index
  · rw [hlog]
    exact W.last
  · rw [R.writes]
    exact W.waiting
  · exact R.others j hjn fun h => hjk (h ▸ List.mem_cons_self)
  · rw [R.leader]
    exact Contact.round_other _ (fun h : j = k => hjk (h ▸ List.mem_cons_self)) _ _
  · rw [R.leader]
    exact hfacing.next
  · rw [R.follower]
    exact hfacing.follower

theorem Brought.trans {ks : List NodeId} {s t u : Cluster} (h : Brought n ks s t)
    (h' : Brought n ks t u) : Brought n ks s u where
  log := h'.log.trans h.log
  others j hj hjk := (h'.others j hj hjk).trans (h.others j hj hjk)
  known j hj := ⟨(h'.known j hj).1.trans (h.known j hj).1, (h'.known j hj).2.trans (h.known j hj).2⟩
  history := h.history.trans h'.history

theorem Brought.mono {ks ls : List NodeId} {s t : Cluster} (h : Brought n ks s t) (hsub : ks ⊆ ls) :
    Brought n ls s t where
  log := h.log
  others j hj hjl := h.others j hj fun hk => hjl (hsub hk)
  known j hjl := h.known j fun hk => hjl (hsub hk)
  history := h.history

/-- **One peer is brought up to date**: every refusal moves `next_index_` one back, and at the
latest the request that starts at the first entry is accepted. -/
theorem bring (hn : n ∈ m.ids) (hQ : n ∈ Q) (hk : k ∈ Q) (hpeer : k ∈ (m.configOf n).otherPeers) :
    ∀ (x : Nat) (s : Cluster), Run m hash anyStep s → Awaiting Q n t e s →
      (s.servers n).raft.nextIndex.valueAt k = x → x ≤ (s.servers n).raft.log.entries.length →
      ∃ s', Runs.Run (step m) s (among Q) s' ∧ Awaiting Q n t e s' ∧ Brought n [k] s s' ∧
        Matched n k s' := by
  intro x
  induction x with
  | zero =>
    intro s hr W hx _
    obtain ⟨h, _, S⟩ := run_simulated hr
    have hpos := (((S.node n).leader W.heads.leads).next k hpeer).1
    omega
  | succ x ih =>
    intro s hr W hx hle
    obtain ⟨h, I, S⟩ := run_simulated hr
    have hL := (S.node n).contiguous
    have hF := (S.node k).contiguous
    obtain ⟨s₁, hrun, R⟩ := cluster_round hr hn hQ hk hpeer (W.heads.up n hQ) (W.heads.up k hk)
      W.heads.leads W.fits
    have hfacing := W.facing hk
    rw [hx] at hfacing
    by_cases hmeet : Contact.Meets (s.servers k).raft.log.entries (s.servers n).raft.log.entries x
    · obtain ⟨_, _, _, _, _, hnext, hmatch⟩ := hfacing.accepted (m.configOf n) s.clock hL hF
        (Nat.succ_pos x) (by omega) hmeet
      obtain ⟨W₁, B₁, _, hlog⟩ := W.round R hnext
      have hlogs : LogsMatch entryTerm (s.servers k).raft.log.entries
          (s.servers n).raft.log.entries := by
        rw [← (S.node k).log, ← (S.node n).log]
        exact (I.rooted_log k).logsMatch (I.rooted_log n)
      refine ⟨s₁, hrun, W₁, B₁, ?_, ?_⟩
      · rw [B₁.log, R.leader, hmatch, if_pos hle]
      · rw [B₁.log, hlog]
        exact (Contact.appendLoop_rest hL hF (by omega) hlogs hmeet).1.contains
    · obtain ⟨_, _, hnext, _⟩ := hfacing.refused (m.configOf n) s.clock hL hF (Nat.succ_pos x)
        (by omega) hmeet
      obtain ⟨W₁, B₁, hx₁, _⟩ := W.round R hnext
      obtain ⟨s₂, hrun₂, W₂, B₂, M⟩ := ih s₁ (run_among hr hrun) W₁ hx₁ (by rw [B₁.log]; omega)
      exact ⟨s₂, hrun.trans hrun₂, W₂, B₁.trans B₂, M⟩

theorem bring_all (hn : n ∈ m.ids) (hQ : n ∈ Q) :
    ∀ (ks : List NodeId), (∀ k ∈ ks, k ∈ Q ∧ k ∈ (m.configOf n).otherPeers) → ks.Nodup →
      ∀ s : Cluster, Run m hash anyStep s → Awaiting Q n t e s →
        (∀ k ∈ ks, (s.servers n).raft.nextIndex.valueAt k ≤
          (s.servers n).raft.log.entries.length) →
        ∃ s', Runs.Run (step m) s (among Q) s' ∧ Awaiting Q n t e s' ∧ Brought n ks s s' ∧
          ∀ k ∈ ks, Matched n k s'
  | [], _, _, s, _, W, _ =>
    ⟨s, .init, W, ⟨rfl, fun _ _ _ => rfl, fun _ _ => ⟨rfl, rfl⟩, List.prefix_refl _⟩,
      fun _ h => by cases h⟩
  | k :: ks, hks, hnd, s, hr, W, hnext => by
    obtain ⟨hfresh, hnd⟩ := List.nodup_cons.mp hnd
    obtain ⟨hkQ, hpeer⟩ := hks k List.mem_cons_self
    obtain ⟨s₁, hrun₁, W₁, B₁, M₁⟩ := bring hn hQ hkQ hpeer _ s hr W rfl
      (hnext k List.mem_cons_self)
    obtain ⟨s₂, hrun₂, W₂, B₂, M₂⟩ := bring_all hn hQ ks
      (fun j hj => hks j (List.mem_cons_of_mem _ hj)) hnd s₁ (run_among hr hrun₁) W₁ (by
        intro j hj
        have hjk : j ∉ [k] := fun h => hfresh (List.mem_singleton.mp h ▸ hj)
        rw [(B₁.known j hjk).2, B₁.log]
        exact hnext j (List.mem_cons_of_mem _ hj))
    have B : Brought n (k :: ks) s s₂ :=
      (B₁.mono (by simp)).trans
        (B₂.mono (List.subset_cons_self k ks))
    refine ⟨s₂, hrun₁.trans hrun₂, W₂, B, fun j hj => ?_⟩
    rcases List.mem_cons.mp hj with rfl | hj
    · -- the rounds with the others do not touch the first one again
      have hne := (Membership.mem_otherPeers.mp hpeer).2
      exact ⟨by rw [(B₂.known j hfresh).1, B₂.log]; exact M₁.known,
        by rw [B₂.others j hne hfresh, B₂.log]; exact M₁.held⟩
    · exact M₂ j hj

theorem write_stepped {w : Write} {raft : RaftNode} {next : Option Write} {events : List Event}
    (hn : n ∈ m.ids) (hw : (s.servers n).writes[t]? = some w)
    (hout : w.step n (s.servers n).raft false = some (raft, next, events)) :
    s.step m (.act n (.writeStep t false)) =
      some (s.update n
        { s.servers n with raft := raft, writes := putThread (s.servers n).writes t next }
        none events) := by
  simp [Cluster.step, Cluster.actStep, hn, hw, hout]

theorem Heads.step (H : Heads Q n s) {a : ServerAction} {srv : Server} {events : List Event}
    (hstep : s.step m (.act n a) = some (s.update n srv none events))
    (ha : among Q s (.act n a)) (hup : srv.up = (s.servers n).up)
    (hst : srv.raft.state = (s.servers n).raft.state)
    (hterm : srv.raft.currentTerm = (s.servers n).raft.currentTerm) :
    ∃ s', Runs.Run (Cluster.step m) s (among Q) s' ∧ Heads Q n s' ∧ s'.servers n = srv ∧
      (∀ k, k ≠ n → s'.servers k = s.servers k) ∧ s'.history = s.history ++ events := by
  have hself : (s.update n srv none events).servers n = srv := by simp [Cluster.update]
  have hother : ∀ k, k ≠ n → (s.update n srv none events).servers k = s.servers k := by
    intro k hk
    simp [Cluster.update, hk]
  refine ⟨_, .step .init ha hstep, ⟨?_, fun k hk => ?_, fun k hk => ?_⟩, hself, hother, rfl⟩
  · rw [hself, hst]
    exact H.leads
  · by_cases hkn : k = n
    · rw [hkn]
    · rw [hself, hother k hkn, hterm]
      exact H.term k hk
  · by_cases hkn : k = n
    · subst hkn
      rw [hself, hup]
      exact H.up k hk
    · rw [hother k hkn]
      exact H.up k hk

/-- **A write is proposed**: the leader has appended it and a thread of the handler waits. -/
theorem propose (hn : n ∈ m.ids) (hQ : n ∈ Q) (hr : Run m hash anyStep s) (H : Heads Q n s)
    {op : WalOp} {key value : Bytes}
    (hfits : FitsFrame ((s.servers n).raft.log.entries ++ [⟨0, 0, op, key, value⟩])) :
    ∃ s' t e, Runs.Run (step m) s (among Q) s' ∧ Awaiting Q n t e s' ∧
      (e.op = op ∧ e.key = key ∧ e.value = value) ∧
      (∀ k ∈ (m.configOf n).otherPeers, (s'.servers n).raft.nextIndex.valueAt k ≤
        (s'.servers n).raft.log.entries.length) ∧ s.history <+: s'.history := by
  obtain ⟨h, _, S⟩ := run_simulated hr
  have hL := (S.node n).contiguous
  have hnext := ((S.node n).leader H.leads).next
  -- the request arrives
  have hwrite : s.step m (.act n (.write op key value)) = some (s.update n
      { s.servers n with
        writes := (s.servers n).writes ++ [{ entry := { op, key, value } }] }) := by
    simp [Cluster.step, Cluster.actStep, hn, H.up n hQ]
  obtain ⟨s₁, hrun₁, H₁, hsrv₁, _, hhist₁⟩ := H.step hwrite hQ rfl rfl rfl
  -- `Handle` sees that the node leads
  have hw₁ : (s₁.servers n).writes[(s.servers n).writes.length]? =
      some { entry := { op, key, value } } := by
    simp [hsrv₁]
  have hout₁ : Write.step n (s₁.servers n).raft { entry := { op, key, value } } false =
      some ((s₁.servers n).raft, some ⟨{ op, key, value }, .leaderSeen⟩, []) := by
    simp [Write.step, H₁.leads]
  obtain ⟨s₂, hrun₂, H₂, hsrv₂, _, hhist₂⟩ := H₁.step (write_stepped hn hw₁ hout₁) hQ rfl rfl rfl
  -- `Propose` appends
  have hraft₂ : (s₂.servers n).raft = (s.servers n).raft := by rw [hsrv₂, hsrv₁]
  have hw₂ : (s₂.servers n).writes[(s.servers n).writes.length]? =
      some ⟨{ op, key, value }, .leaderSeen⟩ := by
    simp [hsrv₂, hsrv₁, putThread]
  obtain ⟨e, he⟩ : ∃ e : LogEntry, e =
      { term := (s.servers n).raft.currentTerm
        index := (s.servers n).raft.log.entries.length + 1
        op := op
        key := key
        value := value } := ⟨_, rfl⟩
  have hout₂ : Write.step n (s₂.servers n).raft ⟨{ op, key, value }, .leaderSeen⟩ false =
      some ({ (s.servers n).raft with log := (s.servers n).raft.log.append e },
        some ⟨{ op, key, value }, .waiting e⟩, [.proposed n e]) := by
    simp [Write.step, RaftNode.proposeAppend, hraft₂, H.leads, hL.lastIndex, he]
  obtain ⟨s₃, hrun₃, H₃, hsrv₃, _, hhist₃⟩ := H₂.step (write_stepped hn hw₂ hout₂) hQ rfl
    (by rw [hraft₂]) (by rw [hraft₂])
  have hraft₃ : (s₃.servers n).raft =
      { (s.servers n).raft with log := (s.servers n).raft.log.append e } := by rw [hsrv₃]
  have hlog : (s₃.servers n).raft.log.entries = (s.servers n).raft.log.entries ++ [e] := by
    rw [hraft₃, he]
    exact Log.append_entries _ hL _
  refine ⟨s₃, (s.servers n).writes.length, e, (hrun₁.trans hrun₂).trans hrun₃, ⟨H₃, ?_, ?_, ?_, ?_, ?_⟩,
    ?_, fun k hk => ?_, ?_⟩
  · rw [hraft₃, he]
  · rw [hlog, he]
    simp
  · rw [hlog]
    simp
  · refine ⟨⟨{ op, key, value }, .waiting e⟩, ?_, rfl⟩
    simp [hsrv₃, hsrv₂, hsrv₁, putThread]
  · rw [hlog]
    exact hfits.concat (by rw [he]) (by rw [he])
  · rw [he]
    exact ⟨rfl, rfl, rfl⟩
  · rw [hlog, hraft₃, List.length_append]
    exact (hnext k hk).2
  · rw [hhist₃, hhist₂, hhist₁, List.append_nil, List.append_nil]
    exact List.prefix_append _ _

/-- What a majority of the members holds is committed. -/
theorem Awaiting.committed (W : Awaiting Q n t e s) (hr : Run m hash anyStep s)
    (hsize : 2 ≤ m.ids.length) (hmaj : Quorum.majority m.ids.length ≤ m.sizeOf Q) (hn : n ∈ m.ids)
    (hall : ∀ k ∈ m.ids, k ∈ Q → k ≠ n → Matched n k s) :
    e.index ≤ (s.servers n).raft.commitIndex := by
  obtain ⟨h, I, S⟩ := run_simulated hr
  have hL := (S.node n).contiguous
  have hcaught := run_caughtUp (by rw [← m.ids_length]; exact hsize) hr n hn W.heads.leads
  refine hcaught e.index ⟨?_, e, ?_, W.term⟩
  · have hreach : m.sizeOf Q ≤ (s.servers n).raft.reachedBy (m.configOf n) e.index := by
      refine List.countP_mono_left fun k hk hkQ => decide_eq_true ?_
      show e.index ≤ if k = n then _ else _
      by_cases hkn : k = n
      · rw [if_pos hkn, hL.lastIndex_eq, W.index]
      · rw [if_neg hkn, (hall k hk (of_decide_eq_true hkQ) hkn).known, W.index]
    rw [m.ids_length] at hmaj
    exact RaftNode.majority_le_iff.mp (Nat.le_trans hmaj hreach)
  · have hpos : 0 < (s.servers n).raft.log.entries.length := by
      rw [List.length_pos_iff, ← List.getLast?_isSome, W.last]
      rfl
    rw [hL.get_eq (by rw [W.index]; exact hpos), W.index, ← List.getLast?_eq_getElem?]
    exact W.last

theorem Awaiting.answered (W : Awaiting Q n t e s) (hr : Run m hash anyStep s) (hn : n ∈ m.ids)
    (hQ : n ∈ Q) (hcommit : e.index ≤ (s.servers n).raft.commitIndex) :
    ∃ s', Runs.Run (step m) s (among Q) s' ∧ (∀ k, (s'.servers k).raft = (s.servers k).raft) ∧
      s'.history = s.history ++ [.proposeReturned n e .Ok (s.servers n).raft.log.entries,
        .answered n (some e) { status := .kOk }] := by
  obtain ⟨w, hw, hstage⟩ := W.waiting
  have happlied := Nat.le_trans hcommit ((run_commitInv hr).applied n)
  have hout : w.step n (s.servers n).raft false = some ((s.servers n).raft, none,
      [.proposeReturned n e .Ok (s.servers n).raft.log.entries,
        .answered n (some e) { status := .kOk }]) := by
    simp [Write.step, hstage, RaftNode.proposeResult, happlied, Nat.not_lt.mpr happlied,
      Write.afterPropose, Status.ok, Status.Ok]
  obtain ⟨s', hrun, _, hsrv, hother, hhist⟩ :=
    W.heads.step (write_stepped hn hw hout) hQ rfl rfl rfl
  refine ⟨s', hrun, fun k => ?_, hhist⟩
  by_cases hk : k = n
  · rw [hk, hsrv]
  · rw [hother k hk]

end Commit

/-! ## Result -/

/-- **From every reachable state a majority that is up can commit a write**: a member leads, every
member of the majority has the entry, it is committed, and the client has its answer.  The log of
each member and the write have to fit into one frame.  A single node is excluded: it never calls
`AdvanceCommitIndexLocked`. -/
theorem majority_can_commit {m : Membership} {hash : Bytes → Nat} {s : Cluster} {Q : List NodeId}
    (hr : Run m hash anyStep s) (hsize : 2 ≤ m.ids.length) (hQids : ∀ k ∈ Q, k ∈ m.ids)
    (hup : ∀ k ∈ Q, (s.servers k).up = true)
    (hmaj : Quorum.majority m.ids.length ≤ m.sizeOf Q) {op : WalOp} {key value : Bytes}
    (hfits : ∀ k ∈ Q, FitsFrame ((s.servers k).raft.log.entries ++ [⟨0, 0, op, key, value⟩])) :
    ∃ s' n e, Runs.Run (step m) s (among Q) s' ∧ n ∈ Q ∧
      (e.op = op ∧ e.key = key ∧ e.value = value) ∧
      (s'.servers n).raft.state = .kLeader ∧ e.index ≤ (s'.servers n).raft.commitIndex ∧
      (∀ k ∈ Q, (s'.servers k).raft.log.entries[e.index - 1]? = some e) ∧
      .answered n (some e) { status := .kOk } ∈ s'.history.drop s.history.length := by
  obtain ⟨n, hQ, s₁, hrun₁, H, hlog₁, hhist₁⟩ := elect hr hsize hQids hup hmaj
    fun k hk => (hfits k hk).of_append.1
  have hn := hQids n hQ
  have hr₁ := run_among hr hrun₁
  obtain ⟨s₂, t, e, hrun₂, W₂, hentry, hnext, hhist₂⟩ := propose hn hQ hr₁ H
    (hlog₁ ▸ hfits n hQ)
  have hr₂ := run_among hr₁ hrun₂
  obtain ⟨s₃, hrun₃, W₃, B, M⟩ := bring_all hn hQ
    ((m.configOf n).otherPeers.filter (fun k => decide (k ∈ Q)))
    (fun k hk => ⟨of_decide_eq_true (List.mem_filter.mp hk).2, (List.mem_filter.mp hk).1⟩)
    ((m.otherPeers_nodup n).filter _) s₂ hr₂ W₂ (fun k hk => hnext k (List.mem_filter.mp hk).1)
  have hr₃ := run_among hr₂ hrun₃
  have hall : ∀ k ∈ m.ids, k ∈ Q → k ≠ n → Matched n k s₃ := by
    intro k hk hkQ hkn
    exact M k (List.mem_filter.mpr ⟨Membership.mem_otherPeers.mpr ⟨hk, hkn⟩, decide_eq_true hkQ⟩)
  have hcommit := W₃.committed hr₃ hsize hmaj hn hall
  obtain ⟨s₄, hrun₄, hsame, hhist₄⟩ := W₃.answered hr₃ hn hQ hcommit
  refine ⟨s₄, n, e, ((hrun₁.trans hrun₂).trans hrun₃).trans hrun₄, hQ, hentry, ?_, ?_,
    fun k hk => ?_, ?_⟩
  · rw [hsame]
    exact W₃.heads.leads
  · rw [hsame]
    exact hcommit
  · have hlast : (s₃.servers n).raft.log.entries[e.index - 1]? = some e := by
      rw [W₃.index, ← List.getLast?_eq_getElem?]
      exact W₃.last
    rw [hsame]
    by_cases hkn : k = n
    · rw [hkn]
      exact hlast
    · exact getElem?_of_isPrefix (hall k (hQids k hk) hk hkn).held hlast
  · obtain ⟨new, hnew⟩ := (hhist₁.trans hhist₂).trans B.history
    rw [hhist₄, ← hnew, List.append_assoc, List.drop_left]
    simp

/-- Node 1 has appended an entry for itself alone and crashed while node 2 was waiting for its
vote. -/
theorem majority_can_commit_leaderDown :
    ∃ s, Run Membership.trio (fun _ => 0) anyStep s ∧ (s.servers 1).up = false ∧
      (s.servers 2).election.isSome = true ∧
      ∃ s' n e, Runs.Run (step Membership.trio) s (among [2, 3]) s' ∧ n ∈ [2, 3] ∧
        (e.op = .kSet ∧ e.key = [98] ∧ e.value = [50]) ∧
        (s'.servers n).raft.state = .kLeader ∧ e.index ≤ (s'.servers n).raft.commitIndex ∧
        (∀ k ∈ [2, 3], (s'.servers k).raft.log.entries[e.index - 1]? = some e) ∧
        .answered n (some e) { status := .kOk } ∈ s'.history.drop s.history.length := by
  obtain ⟨s, hr, hs⟩ : ∃ s, Run Membership.trio (fun _ => 0) anyStep s ∧
      decide ((s.servers 1).up = false ∧ (s.servers 2).election.isSome = true ∧
        (∀ k ∈ ([2, 3] : List NodeId), (s.servers k).up = true) ∧
        ∀ k ∈ ([2, 3] : List NodeId), FitsFrame
          ((s.servers k).raft.log.entries ++ [(⟨0, 0, .kSet, [98], [50]⟩ : LogEntry)])) = true :=
    exists_run (electFirst ++ startSet 1 [97] [49] ++
      [.act 2 .startElection, .act 2 .callVoter, .act 1 .crash]) (by decide +kernel)
  obtain ⟨hdown, hstands, hup, hfits⟩ := of_decide_eq_true hs
  exact ⟨s, hr, hdown, hstands, majority_can_commit hr (by decide) (by decide) hup (by decide) hfits⟩

end NeuralKV
