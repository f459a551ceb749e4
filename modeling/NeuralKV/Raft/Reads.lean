import NeuralKV.Raft.StateMachine

/-!
# Confirmed reads

`ConfirmLeadershipQuorum` answers a GET on one of two paths: a full round of empty
`AppendEntries` requests, or at once when a majority has acknowledged something within the last
heartbeat interval.

* `full_round_sound` — after a full round, no node had become leader in a later term when the
  round began.  It holds in every run.
* `fast_path_sound`, `fast_path_stale` — the same for the fast path holds when no peer that it
  counts has moved to a newer term since its ack; in general it does not: followers vote for a
  newer candidate however recently they have acknowledged the leader.
* `confirmed_read_current`, `confirmed_read_misses_write` — a read after a full round answers from
  every acknowledged write when the leader has committed all the entries it inherited and nothing
  that was not committed is acknowledged or applied; a new leader that has not yet committed what it
  inherited reads the state it had as a follower.
-/

set_option autoImplicit false

namespace NeuralKV

open Consensus Quorum Cluster
open Runs (anyStep exists_run)

variable {m : Membership} {hash : Bytes → Nat} {s : Cluster}

/-! ## The full round -/

/-- **A full round is sound**: when it began, nobody had been elected in a later term. -/
theorem full_round_sound (hr : Run m hash anyStep s) {n n' : NodeId} {T U start : Nat}
    {L : List LogEntry} (hc : Event.confirmed n T start true ∈ s.history)
    (hb : Event.becameLeader n' U L ∈ s.history.take start) : U ≤ T := by
  obtain ⟨h, _, S⟩ := run_simulated hr
  exact (S.history.events _ hc).2 U ⟨n', L, hb⟩

/-- After `failover`, node 2 brings node 3 up to date and a GET on it is confirmed by a full
round with the ack of node 3. -/
def readAfterFailover : List Action :=
  failover ++
    [.act 2 (.replicate 3), .deliver 6, .act 2 (.replicateReply 6),
      .act 2 (.replicate 3), .deliver 7,
      .act 2 (.read [97]), .act 2 (.readStep 0), .act 2 (.readStep 0), .act 2 (.readStep 0),
      .act 2 (.readLost 0), .act 2 (.readStep 0), .deliver 9, .act 2 (.readStep 0),
      .act 2 (.readStep 0), .act 2 (.readStep 0)]

theorem full_round_sound_failover :
    ∃ s, Run Membership.trio (fun _ => 0) anyStep s ∧
      Event.confirmed 2 2 6 true ∈ s.history ∧
      ∀ n' U L, Event.becameLeader n' U L ∈ s.history.take 6 → U ≤ 2 := by
  obtain ⟨s, hr, hs⟩ : ∃ s, Run Membership.trio (fun _ => 0) anyStep s ∧
      decide (Event.confirmed 2 2 6 true ∈ s.history) = true :=
    exists_run readAfterFailover (by decide +kernel)
  have hc := of_decide_eq_true hs
  exact ⟨s, hr, hc, fun n' U L hb => full_round_sound hr hc hb⟩

/-! ## The fast path -/

/-- Whenever the fast path answers, every peer whose ack it counts is still in a term up to the
leader's. -/
def recentAckersInTerm (m : Membership) (s : Cluster) : Action → Prop
  | .act n (.readStep thread) =>
    match (s.servers n).reads[thread]? with
    | some ⟨_, _, .leaderSeen⟩ =>
      (s.servers n).raft.hasRecentMajorityContact (m.configOf n) s.clock = true →
        ∀ p ∈ (s.servers n).raft.lastAckTime, s.clock - p.2 ≤ kHeartbeatInterval →
          (s.servers p.1).raft.currentTerm ≤ (s.servers n).raft.currentTerm
    | _ => True
  | _ => True

instance (m : Membership) (s : Cluster) (a : Action) : Decidable (recentAckersInTerm m s a) := by
  unfold recentAckersInTerm
  split
  · split <;> infer_instance
  · infer_instance

theorem recentAckersInTerm_readStep {n : NodeId} {thread : Nat} {rd : Read}
    (h : recentAckersInTerm m s (.act n (.readStep thread)))
    (hrd : (s.servers n).reads[thread]? = some rd) (hstage : rd.stage = .leaderSeen)
    (hrecent : (s.servers n).raft.hasRecentMajorityContact (m.configOf n) s.clock = true) :
    ∀ p ∈ (s.servers n).raft.lastAckTime, s.clock - p.2 ≤ kHeartbeatInterval →
      (s.servers p.1).raft.currentTerm ≤ (s.servers n).raft.currentTerm := by
  obtain ⟨key, invokedAt, stage⟩ := rd
  cases hstage
  simp only [recentAckersInTerm, hrd] at h
  exact h hrecent

/-- The peers the fast path counts, with the node itself, are a majority. -/
theorem recent_majority {h : Hist} (S : Sim m h s) {n : NodeId} (hn : n ∈ m.ids)
    (hrecent : (s.servers n).raft.hasRecentMajorityContact (m.configOf n) s.clock = true)
    (hterm : ∀ p ∈ (s.servers n).raft.lastAckTime, s.clock - p.2 ≤ kHeartbeatInterval →
      (s.servers p.1).raft.currentTerm ≤ (s.servers n).raft.currentTerm) :
    IsMajority m.ids
      { v | (s.servers v).raft.currentTerm ≤ (s.servers n).raft.currentTerm } := by
  have N := S.node n
  have hsub : (((s.servers n).raft.lastAckTime.filter
      fun p => decide (s.clock - p.2 ≤ kHeartbeatInterval)).map (·.1)).Sublist
      ((s.servers n).raft.lastAckTime.map (·.1)) := List.filter_sublist.map _
  have hpeer : ∀ v ∈ ((s.servers n).raft.lastAckTime.filter
      fun p => decide (s.clock - p.2 ≤ kHeartbeatInterval)).map (·.1), v ∈ m.ids ∧ v ≠ n := by
    intro v hv
    obtain ⟨p, hp, rfl⟩ := List.mem_map.mp hv
    exact Membership.mem_otherPeers.mp (N.acks_peers p (List.mem_of_mem_filter hp))
  unfold RaftNode.hasRecentMajorityContact at hrecent
  have hcount := of_decide_eq_true (Bool.and_eq_true_iff.mp hrecent).2
  refine ⟨n :: ((s.servers n).raft.lastAckTime.filter
    fun p => decide (s.clock - p.2 ≤ kHeartbeatInterval)).map (·.1), ?_, ?_, ?_, ?_⟩
  · refine List.nodup_cons.mpr ⟨fun hmem => (hpeer n hmem).2 rfl, N.acks_nodup.sublist hsub⟩
  · exact List.cons_subset.mpr ⟨hn, fun v hv => (hpeer v hv).1⟩
  · rw [List.length_cons, List.length_map, ← List.countP_eq_length_filter, m.ids_length]
    show (m.configOf n).majority ≤ _
    omega
  · intro v hv
    rcases List.mem_cons.mp hv with rfl | hv
    · exact Nat.le_refl _
    · obtain ⟨p, hp, rfl⟩ := List.mem_map.mp hv
      obtain ⟨hmem, hclose⟩ := List.mem_filter.mp hp
      exact hterm p hmem (of_decide_eq_true hclose)

/-- A majority that has not passed `T` leaves no room for a leader of a later term. -/
theorem no_later_leader {h : Hist} (I : HInv m h) (S : Sim m h s) {T : Nat}
    (hmaj : IsMajority m.ids { v | (s.servers v).raft.currentTerm ≤ T }) {n : NodeId} {U : Nat}
    {L : List LogEntry} (hb : Event.becameLeader n U L ∈ s.history) : U ≤ T := by
  have hl := (S.history.events _ hb).1
  obtain ⟨v, hv, hel⟩ := majority_inter hmaj (I.elected U n hl).quorum
  have hreached := I.elector_reached hl hel
  rw [(S.node v).cur] at hreached
  exact Nat.le_trans hreached hv

/-- Nodes that read are members. -/
theorem step_member {s' : Cluster} {n : NodeId} {a : ServerAction}
    (hs : s.step m (.act n a) = some s') : n ∈ m.ids := by
  simp only [step] at hs
  split at hs
  · assumption
  · cases hs

theorem run_fast_path (hr : Run m hash (recentAckersInTerm m) s) :
    ∀ n T start, Event.confirmed n T start false ∈ s.history →
      start ≤ s.history.length ∧ ∀ U, LedBefore s.history start U → U ≤ T := by
  induction hr with
  | init => intro n T start hmem; cases hmem
  | step hr ha hs ih =>
    intro n T start hmem
    obtain ⟨evs, hhist, hcause⟩ := move_events (step_move hs)
    rw [hhist] at hmem ⊢
    rcases List.mem_append.mp hmem with h₁ | h₁
    · obtain ⟨hle, hU⟩ := ih n T start h₁
      refine ⟨?_, fun U hled => hU U (hled.of_append hle)⟩
      rw [List.length_append]
      exact Nat.le_add_right_of_le hle
    · obtain ⟨thread, rd, rfl, hrd, hstage, hrecent, rfl, rfl⟩ := hcause _ h₁
      obtain ⟨h, I, S⟩ := run_simulated hr
      refine ⟨by rw [List.length_append]; exact Nat.le_add_right _ _, ?_⟩
      intro U hled
      obtain ⟨n', L, hb⟩ := hled.of_append (Nat.le_refl _)
      exact no_later_leader I S (recent_majority S (step_member hs) hrecent
        (recentAckersInTerm_readStep ha hrd hstage hrecent)) (List.mem_of_mem_take hb)

/-- **The fast path is sound while the peers it counts have not moved on**: when it answers,
nobody has been elected in a later term. -/
theorem fast_path_sound (hr : Run m hash (recentAckersInTerm m) s) {n n' : NodeId} {T U start : Nat}
    {L : List LogEntry} (hc : Event.confirmed n T start false ∈ s.history)
    (hb : Event.becameLeader n' U L ∈ s.history.take start) : U ≤ T :=
  (run_fast_path hr n T start hc).2 U ⟨n', L, hb⟩

theorem fast_path_sound_first_leader :
    ∃ s, Run Membership.trio (fun _ => 0) (recentAckersInTerm Membership.trio) s ∧
      Event.confirmed 1 1 1 false ∈ s.history ∧
      ∀ n' U L, Event.becameLeader n' U L ∈ s.history.take 1 → U ≤ 1 := by
  obtain ⟨s, hr, hs⟩ : ∃ s, Run Membership.trio (fun _ => 0) (recentAckersInTerm Membership.trio) s ∧
      decide (Event.confirmed 1 1 1 false ∈ s.history) = true :=
    exists_run
      (electFirst ++
        [.act 1 (.replicate 2), .deliver 2, .act 1 (.replicateReply 2), .act 1 (.read [97]),
          .act 1 (.readStep 0), .act 1 (.readStep 0)]) (by decide +kernel)
  have hc := of_decide_eq_true hs
  exact ⟨s, hr, hc, fun n' U L hb => fast_path_sound hr hc hb⟩

/-- Node 2 acknowledges a heartbeat of node 1 and is then elected in term 2 by node 3, where it
commits an entry.  All of this within one heartbeat interval; then a GET arrives at node 1. -/
def votedAfterAck : List Action :=
  electFirst ++
    [.act 1 (.replicate 2), .deliver 2, .act 1 (.replicateReply 2), .act 1 (.replicate 3)] ++
    electSecond ++ startSet 2 [98] [50] ++
    [.act 2 (.replicate 1), .act 2 (.replicate 3), .deliver 7, .act 2 (.replicateReply 7),
      .act 1 (.read [98]), .act 1 (.readStep 0), .act 1 (.readStep 0)]

/-- **In general the fast path confirms a leader that has been replaced.** -/
theorem fast_path_stale :
    ¬ ∀ (m : Membership) (hash : Bytes → Nat) (s : Cluster), Run m hash anyStep s →
      ∀ n T start, Event.confirmed n T start false ∈ s.history →
        ¬ ∃ n' U N L L', n' ≠ n ∧ T < U ∧ Event.becameLeader n' U L ∈ s.history.take start ∧
          Event.advanced n' U N L' ∈ s.history.take start := by
  intro hall
  obtain ⟨s, hr, hs⟩ : ∃ s, Run Membership.trio (fun _ => 0) anyStep s ∧
      decide (Event.confirmed 1 1 4 false ∈ s.history ∧
        Event.becameLeader 2 2 [] ∈ s.history.take 4 ∧
        Event.advanced 2 2 1 [⟨2, 1, .kSet, [98], [50]⟩] ∈ s.history.take 4) = true :=
    exists_run votedAfterAck (by decide +kernel)
  obtain ⟨hc, hb, ha⟩ := of_decide_eq_true hs
  exact hall _ _ s hr 1 1 4 hc ⟨2, 2, 1, _, _, by decide, by decide, hb, ha⟩

/-! ## Reads and acknowledged writes -/

/-- A full round begins only when every entry behind `commit_index_` is of the leader's own term,
and `Propose` returns `Ok` only up to `commit_index_`. -/
def readsCaughtUp (m : Membership) (s : Cluster) : Action → Prop
  | .act n (.readStep thread) =>
    match (s.servers n).reads[thread]? with
    | some ⟨_, _, .leaderSeen⟩ =>
      (s.servers n).raft.state = .kLeader →
        (s.servers n).raft.hasRecentMajorityContact (m.configOf n) s.clock = false →
          ∀ e ∈ (s.servers n).raft.log.entries.drop (s.servers n).raft.commitIndex,
            e.term = (s.servers n).raft.currentTerm
    | _ => True
  | .act n (.writeStep thread _) =>
    match (s.servers n).writes[thread]? with
    | some ⟨_, .waiting entry⟩ =>
      entry.index ≤ (s.servers n).raft.storage.lastAppliedIndex →
        entry.index ≤ (s.servers n).raft.commitIndex
    | _ => True
  | _ => True

instance (m : Membership) (s : Cluster) : (a : Action) → Decidable (readsCaughtUp m s a)
  | .act n (.readStep thread) => by
    unfold readsCaughtUp
    dsimp only
    split <;> infer_instance
  | .act n (.writeStep thread _) => by
    unfold readsCaughtUp
    dsimp only
    generalize (s.servers n).writes[thread]? = w
    exact match w with
      | some ⟨_, .waiting _⟩ => inferInstance
      | none | some ⟨_, .invoked⟩ | some ⟨_, .leaderSeen⟩ | some ⟨_, .rejected _⟩ =>
        instDecidableTrue
  | .tick _ | .deliver _ | .act _ .crash | .act _ .restart | .act _ .startElection
  | .act _ .callVoter | .act _ .voteLost | .act _ .voteReply | .act _ .endElection
  | .act _ (.replicate _) | .act _ (.replicateReply _) | .act _ (.write _ _ _) | .act _ (.read _)
  | .act _ (.readLost _) => instDecidableTrue

theorem readsCaughtUp_readStep {n : NodeId} {thread : Nat} {rd : Read}
    (h : readsCaughtUp m s (.act n (.readStep thread)))
    (hrd : (s.servers n).reads[thread]? = some rd) (hstage : rd.stage = .leaderSeen)
    (hlead : (s.servers n).raft.state = .kLeader)
    (hrecent : (s.servers n).raft.hasRecentMajorityContact (m.configOf n) s.clock = false) :
    ∀ e ∈ (s.servers n).raft.log.entries.drop (s.servers n).raft.commitIndex,
      e.term = (s.servers n).raft.currentTerm := by
  obtain ⟨key, invokedAt, stage⟩ := rd
  cases hstage
  simp only [readsCaughtUp, hrd] at h
  exact h hlead hrecent

theorem readsCaughtUp_writeStep {n : NodeId} {thread : Nat} {timedOut : Bool} {w : Write}
    {e : LogEntry} (h : readsCaughtUp m s (.act n (.writeStep thread timedOut)))
    (hw : (s.servers n).writes[thread]? = some w) (hstage : w.stage = .waiting e)
    (hle : e.index ≤ (s.servers n).raft.storage.lastAppliedIndex) :
    e.index ≤ (s.servers n).raft.commitIndex := by
  obtain ⟨entry, stage⟩ := w
  cases hstage
  simp only [readsCaughtUp, hw] at h
  exact h hle

/-- What leaders of terms up to `T` have committed within the first `k` events is applied up to
`applied`. -/
def Covers (hist : List Event) (k T applied : Nat) : Prop :=
  ∀ n T' N L, Event.advanced n T' N L ∈ hist.take k → T' ≤ T → N ≤ applied

theorem Covers.mono {hist evs : List Event} {k T a a' : Nat} (h : Covers hist k T a)
    (hk : k ≤ hist.length) (ha : a ≤ a') : Covers (hist ++ evs) k T a' := by
  intro n T' N L hmem hT
  rw [take_append_events hk] at hmem
  exact Nat.le_trans (h n T' N L hmem hT) ha

/-- **A leader that has committed what it inherited has applied everything committed before.** -/
theorem leader_covers {h : Hist} (I : HInv m h) (S : Sim m h s) (C : CommitInv s) {n : NodeId}
    (hlead : (s.servers n).raft.state = .kLeader)
    (hown : ∀ e ∈ (s.servers n).raft.log.entries.drop (s.servers n).raft.commitIndex,
      e.term = (s.servers n).raft.currentTerm) :
    Covers s.history s.history.length (s.servers n).raft.currentTerm
      (s.servers n).raft.storage.lastAppliedIndex := by
  intro k T N L hmem hT
  rw [List.take_length] at hmem
  have N' := S.node n
  have hl := (N'.leader hlead).leads
  refine Nat.le_trans ?_ (C.applied n)
  rcases Nat.lt_or_eq_of_le hT with hlt | rfl
  · -- an earlier leader: its entries are in the log this one stood with, and of that log nothing
    -- is left behind the commit index
    obtain ⟨L₀, hled⟩ := S.history.recorded n _ hl
    obtain ⟨hpre, hNL⟩ := S.leader_complete I hmem hled hlt
    have hlen := hpre.length_le
    rw [List.length_take, Nat.min_eq_left hNL] at hlen
    by_contra hcN
    have hpos : (s.servers n).raft.commitIndex < L₀.length := by omega
    have hstood := (S.history.events _ hled).2
    obtain ⟨L₁, hL₁, hbook, _⟩ := (I.elected _ n hl).stood
    rw [hstood] at hL₁
    cases hL₁
    obtain ⟨e, hmem₀⟩ : ∃ e, L₀[(s.servers n).raft.commitIndex]? = some e :=
      ⟨_, List.getElem?_eq_getElem hpos⟩
    have hbehind := getElem?_of_isPrefix hbook hmem₀
    rw [← N'.leader_log I hlead] at hbehind
    have hterm := (I.stood_le _ _ _ hstood).2.2 _ (List.mem_of_getElem? hmem₀)
    rw [← Nat.add_zero (s.servers n).raft.commitIndex, ← List.getElem?_drop] at hbehind
    have hcur := hown _ (List.mem_of_getElem? hbehind)
    exact absurd hterm (by rw [show entryTerm e = _ from hcur]; exact Nat.lt_irrefl _)
  · -- its own commitments
    have hk := (S.history.events _ hmem).1
    rw [hl] at hk
    cases hk
    exact C.own n hlead N L hmem

/-- What a reading thread may rely on. -/
structure ReadOk (hist : List Event) (applied : Nat) (rd : Read) : Prop where
  invoked : rd.invokedAt ≤ hist.length
  round : ∀ term start acks todo waiting, rd.stage = .round term start acks todo waiting →
    rd.invokedAt ≤ start ∧ start ≤ hist.length ∧ Covers hist start term applied
  confirmed : ∀ start, rd.stage = .confirmed start true →
    rd.invokedAt ≤ start ∧ start ≤ hist.length ∧ ∀ T, Covers hist start T applied

theorem ReadOk.mono {hist evs : List Event} {a a' : Nat} {rd : Read} (R : ReadOk hist a rd)
    (ha : a ≤ a') : ReadOk (hist ++ evs) a' rd := by
  have hlen : ∀ {k : Nat}, k ≤ hist.length → k ≤ (hist ++ evs).length := by
    intro k hk
    rw [List.length_append]
    exact Nat.le_add_right_of_le hk
  refine ⟨hlen R.invoked, ?_, ?_⟩
  · intro term start acks todo waiting hst
    obtain ⟨h₁, h₂, h₃⟩ := R.round term start acks todo waiting hst
    exact ⟨h₁, hlen h₂, h₃.mono h₂ ha⟩
  · intro start hst
    obtain ⟨h₁, h₂, h₃⟩ := R.confirmed start hst
    exact ⟨h₁, hlen h₂, fun T => (h₃ T).mono h₂ ha⟩

/-- A thread outside a round relies on nothing. -/
theorem ReadOk.of_stage {hist : List Event} {a : Nat} {rd : Read}
    (hinv : rd.invokedAt ≤ hist.length)
    (h₁ : ∀ term start acks todo waiting, rd.stage ≠ .round term start acks todo waiting)
    (h₂ : ∀ start, rd.stage ≠ .confirmed start true) : ReadOk hist a rd :=
  ⟨hinv, fun _ _ _ _ _ h => absurd h (h₁ _ _ _ _ _), fun _ h => absurd h (h₂ _)⟩

structure ReadsInv (s : Cluster) : Prop where
  threads : ∀ n, ∀ rd ∈ (s.servers n).reads,
    ReadOk s.history (s.servers n).raft.storage.lastAppliedIndex rd
  acked : ∀ k n e L, Event.proposeReturned n e .Ok L ∈ s.history.take k →
    ∃ n' T N L', Event.advanced n' T N L' ∈ s.history.take k ∧ e.index ≤ N
  done : ∀ n key invokedAt start applied resp,
    Event.readDone n key invokedAt start true applied resp ∈ s.history →
      invokedAt ≤ s.history.length ∧ ∀ T, Covers s.history invokedAt T applied

section Preservation

variable {h : Hist} {s' : Cluster} {a : Action} {n : NodeId} {r' : RaftNode} {evs : List Event}

/-- A process that is not restarted never takes back what it has applied. -/
theorem lastApplied_effect (I : HInv m h) (S : Sim m h s) (E : Effect m s a n r' evs)
    (ha : a ≠ .act n .restart) :
    (s.servers n).raft.storage.lastAppliedIndex ≤ r'.storage.lastAppliedIndex := by
  cases E.store I S with
  | same _ hst => exact Nat.le_of_eq (by rw [hst])
  | applied hst =>
    rw [hst]
    exact Nat.le_max_left _ _
  | restarted h₁ _ => exact absurd h₁ ha

/-- Reading leaves the storage alone. -/
theorem ReadMove.storage {config : ClusterConfig} {raft : RaftNode} {rd : Read}
    {now pos nextRpc : Nat} {reply : Option AppendEntriesResponse} {out : ReadOutcome}
    (hmove : ReadMove config raft rd now pos nextRpc reply out) : out.raft.storage = raft.storage := by
  cases hmove with
  | lost _ _ _ => exact (Follows.confirmReply _ _ _ _ _ _).storage
  | counted _ _ _ => exact (Follows.confirmReply _ _ _ _ _ _).storage
  | _ => rfl

/-- **One scope of a GET keeps what the thread may rely on.** -/
theorem readOk_move (I : HInv m h) (S : Sim m h s) (C : CommitInv s) {thread : Nat} {rd rd' : Read}
    {out : ReadOutcome} (hok : readsCaughtUp m s (.act n (.readStep thread)))
    (hrd : (s.servers n).reads[thread]? = some rd)
    (hmove : ReadMove (m.configOf n) (s.servers n).raft rd s.clock s.history.length s.rpcs.length
      (s.readReply rd) out) (hnext : out.thread = some rd')
    (R : ReadOk s.history (s.servers n).raft.storage.lastAppliedIndex rd) :
    ReadOk s.history (s.servers n).raft.storage.lastAppliedIndex rd' := by
  cases hmove with
  | passed hstage =>
    cases hnext
    refine ReadOk.of_stage R.invoked ?_ ?_
    · intro _ _ _ _ _ hs
      rcases hstage with h₁ | h₁ <;> rw [h₁] at hs <;> cases hs
    · intro _ hs
      rcases hstage with h₁ | h₁ <;> rw [h₁] at hs <;> cases hs
  | recent _ _ =>
    cases hnext
    exact ReadOk.of_stage R.invoked (by simp) (by simp)
  | begun hstage hlead hrecent =>
    cases hnext
    refine ⟨R.invoked, ?_, by simp⟩
    intro term start acks todo waiting hs
    cases hs
    exact ⟨R.invoked, Nat.le_refl _,
      leader_covers I S C hlead (readsCaughtUp_readStep hok hrd hstage hlead hrecent)⟩
  | confirmed hstage hmaj =>
    cases hnext
    refine ⟨R.invoked, by simp, ?_⟩
    intro start hs
    cases hs
    obtain ⟨h₁, h₂, hcov⟩ := R.round _ _ _ _ _ hstage
    have Q := S.reads n rd (List.mem_of_getElem? hrd) _ _ _ _ _ hstage
    refine ⟨h₁, h₂, ?_⟩
    intro T k T' N L hmem _
    exact hcov k T' N L hmem
      (Q.confirmed I S.history hmaj T' (S.history.led_first _ k T' N L hmem))
  | sent hstage _ =>
    cases hnext
    refine ⟨R.invoked, ?_, by simp⟩
    intro term start acks todo waiting hs
    cases hs
    exact R.round _ _ _ _ _ hstage
  | lost _ _ _ =>
    cases hnext
    exact ReadOk.of_stage R.invoked (by simp) (by simp)
  | counted hstage _ _ =>
    cases hnext
    refine ⟨R.invoked, ?_, by simp⟩
    intro term start acks todo waiting hs
    cases hs
    exact R.round _ _ _ _ _ hstage
  | done _ => cases hnext
  | refused _ => cases hnext

/-- Only a restart takes back what a process has applied. -/
theorem lastApplied_move (I : HInv m h) (S : Sim m h s) (mv : Move m s a s') {k : NodeId}
    (ha : a ≠ .act k .restart) :
    (s.servers k).raft.storage.lastAppliedIndex ≤ (s'.servers k).raft.storage.lastAppliedIndex := by
  obtain ⟨n, r', evs, E, hn, hother, _⟩ := move_effect mv
  exact forall_effect hn hother
    (P := fun k r => a ≠ .act k .restart →
      (s.servers k).raft.storage.lastAppliedIndex ≤ r.storage.lastAppliedIndex)
    (lastApplied_effect I S E) (fun _ _ _ => Nat.le_refl _) k ha

theorem ReadsInv.threads_step (I : HInv m h) (S : Sim m h s) (C : CommitInv s) (Z : ReadsInv s)
    (hok : readsCaughtUp m s a) (mv : Move m s a s') {k : NodeId} {rd : Read}
    (hrd : rd ∈ (s'.servers k).reads) :
    ReadOk s'.history (s'.servers k).raft.storage.lastAppliedIndex rd := by
  obtain ⟨evs, hhist, _⟩ := move_events mv
  rw [hhist]
  cases move_reads mv k rd hrd with
  | kept hold ha => exact (Z.threads k rd hold).mono (lastApplied_move I S mv ha)
  | invoked ha =>
    refine ReadOk.of_stage ?_ (by simp) (by simp)
    rw [List.length_append]
    exact Nat.le_add_right _ _
  | moved ha hold hmove hnext =>
    subst ha
    exact (readOk_move I S C hok hold hmove hnext (Z.threads k _ (List.mem_of_getElem? hold))).mono
      (lastApplied_move I S mv (by simp))
  | @lost _ rd₀ term start acks todo _ ha hold hstage =>
    have R := Z.threads k rd₀ hold
    have R' : ReadOk s.history (s.servers k).raft.storage.lastAppliedIndex
        { rd₀ with stage := .round term start acks todo none } := by
      refine ⟨R.invoked, ?_, by simp⟩
      intro _ _ _ _ _ hs
      cases hs
      exact R.round _ _ _ _ _ hstage
    exact R'.mono (lastApplied_move I S mv (by subst ha; simp))

/-- An acknowledgement follows the commitment that reaches its index. -/
theorem ReadsInv.acked_step (S : Sim m h s) (C : CommitInv s) (Z : ReadsInv s)
    (hok : readsCaughtUp m s a) (mv : Move m s a s') {k : Nat} {n' : NodeId} {e : LogEntry}
    {L : List LogEntry} (hmem : Event.proposeReturned n' e .Ok L ∈ s'.history.take k) :
    ∃ c T N L', Event.advanced c T N L' ∈ s'.history.take k ∧ e.index ≤ N := by
  obtain ⟨evs, hhist, hcause⟩ := move_events mv
  rw [hhist] at hmem ⊢
  rcases mem_take_append hmem with h₁ | ⟨h₁, hpre⟩
  · obtain ⟨c, T, N, L', h₂, h₃⟩ := Z.acked k n' e L h₁
    exact ⟨c, T, N, L', ((List.prefix_append _ evs).take k).subset h₂, h₃⟩
  · obtain ⟨thread, timedOut, w, rfl, hw, hstage, rfl, _, hres⟩ := hcause _ h₁
    have P := S.writes n' w (List.mem_of_getElem? hw) e hstage
    have hle := readsCaughtUp_writeStep hok hw hstage (RaftNode.proposeResult_ok hres)
    rcases C.backed n' with h0 | ⟨c, T, N, L', hadv, _, hN⟩
    · have := P.2.1
      omega
    · refine ⟨c, T, N, L', hpre.subset ?_, by omega⟩
      rw [take_append_events (Nat.le_refl _), List.take_length]
      exact hadv

theorem ReadsInv.done_step (Z : ReadsInv s) (mv : Move m s a s') {k : NodeId} {key : Bytes}
    {inv start applied : Nat} {resp : ClientResponse}
    (hmem : Event.readDone k key inv start true applied resp ∈ s'.history) :
    inv ≤ s'.history.length ∧ ∀ T, Covers s'.history inv T applied := by
  obtain ⟨evs, hhist, hcause⟩ := move_events mv
  rw [hhist] at hmem ⊢
  have grow : inv ≤ s.history.length → (∀ T, Covers s.history inv T applied) →
      inv ≤ (s.history ++ evs).length ∧ ∀ T, Covers (s.history ++ evs) inv T applied := by
    intro h₁ h₂
    rw [List.length_append]
    exact ⟨Nat.le_add_right_of_le h₁, fun T => (h₂ T).mono h₁ (Nat.le_refl _)⟩
  rcases List.mem_append.mp hmem with h₁ | h₁
  · obtain ⟨h₂, h₃⟩ := Z.done k key inv start applied resp h₁
    exact grow h₂ h₃
  · obtain ⟨thread, rd, rfl, hrd, hstage, rfl, rfl, rfl, _⟩ := hcause _ h₁
    obtain ⟨h₂, h₃, h₄⟩ := (Z.threads k rd (List.mem_of_getElem? hrd)).confirmed start hstage
    refine grow (Nat.le_trans h₂ h₃) ?_
    intro T c T' N L hadv hT
    exact h₄ T c T' N L ((List.take_prefix_take_left h₂).subset hadv) hT

theorem readsInv_step (I : HInv m h) (S : Sim m h s) (C : CommitInv s) (Z : ReadsInv s)
    (hok : readsCaughtUp m s a) (mv : Move m s a s') : ReadsInv s' where
  threads _ _ hrd := Z.threads_step I S C hok mv hrd
  acked _ _ _ _ hmem := Z.acked_step S C hok mv hmem
  done _ _ _ _ _ _ hmem := Z.done_step mv hmem

end Preservation

theorem run_readsInv (hr : Run m hash (readsCaughtUp m) s) : ReadsInv s := by
  induction hr with
  | init =>
    refine ⟨fun n rd hrd => (by cases hrd), ?_, fun _ _ _ _ _ _ hmem => (by cases hmem)⟩
    intro k n e L hmem
    simp [Cluster.init] at hmem
  | step hr ha hs ih =>
    obtain ⟨h, I, S⟩ := run_simulated hr
    exact readsInv_step I S (run_commitInv hr) ih ha (step_move hs)

/-- **A read confirmed by a full round has applied every write acknowledged before it was
invoked**, in runs that meet `readsCaughtUp`. -/
theorem confirmed_read_applied (hr : Run m hash (readsCaughtUp m) s) {n l : NodeId} {e : LogEntry}
    {L : List LogEntry} {key : Bytes} {invokedAt start applied : Nat} {resp : ClientResponse}
    (hread : Event.readDone l key invokedAt start true applied resp ∈ s.history)
    (hack : Event.proposeReturned n e .Ok L ∈ s.history.take invokedAt) : e.index ≤ applied := by
  have Z := run_readsInv hr
  obtain ⟨k, T, N, L', hadv, hN⟩ := Z.acked _ n e L hack
  have hcovers := (Z.done l key invokedAt start applied resp hread).2 T
  exact Nat.le_trans hN (hcovers k T N L' hadv (Nat.le_refl _))

/-! ## What a confirmed read answers -/

/-- `Propose` returns `Ok` only in the term in which it appended its entry. -/
def acksInTerm (s : Cluster) : Action → Prop
  | .act n (.writeStep thread _) =>
    match (s.servers n).writes[thread]? with
    | some ⟨_, .waiting entry⟩ =>
      entry.index ≤ (s.servers n).raft.storage.lastAppliedIndex →
        (s.servers n).raft.currentTerm = entry.term
    | _ => True
  | _ => True

instance (s : Cluster) : (a : Action) → Decidable (acksInTerm s a)
  | .act n (.writeStep thread _) => by
    unfold acksInTerm
    dsimp only
    generalize (s.servers n).writes[thread]? = w
    exact match w with
      | some ⟨_, .waiting _⟩ => inferInstance
      | none | some ⟨_, .invoked⟩ | some ⟨_, .leaderSeen⟩ | some ⟨_, .rejected _⟩ =>
        instDecidableTrue
  | .tick _ | .deliver _ | .act _ .crash | .act _ .restart | .act _ .startElection
  | .act _ .callVoter | .act _ .voteLost | .act _ .voteReply | .act _ .endElection
  | .act _ (.replicate _) | .act _ (.replicateReply _) | .act _ (.write _ _ _) | .act _ (.read _)
  | .act _ (.readStep _) | .act _ (.readLost _) => instDecidableTrue

theorem acksInTerm_writeStep {n : NodeId} {thread : Nat} {timedOut : Bool} {w : Write}
    {e : LogEntry} (h : acksInTerm s (.act n (.writeStep thread timedOut)))
    (hw : (s.servers n).writes[thread]? = some w) (hstage : w.stage = .waiting e)
    (hle : e.index ≤ (s.servers n).raft.storage.lastAppliedIndex) :
    (s.servers n).raft.currentTerm = e.term := by
  obtain ⟨entry, stage⟩ := w
  cases hstage
  simp only [acksInTerm, hw] at h
  exact h hle

/-- No write is acknowledged that is not committed, no read begins before the leader has committed
what it inherited, and what node `l` commits as a follower is verified.  Any node but `l` may be
started again. -/
def readsReflect (m : Membership) (l : NodeId) (s : Cluster) (a : Action) : Prop :=
  readsCaughtUp m s a ∧ acksInTerm s a ∧ verifiedAt l s a

instance (m : Membership) (l : NodeId) (s : Cluster) (a : Action) :
    Decidable (readsReflect m l s a) := inferInstanceAs (Decidable (_ ∧ _ ∧ _))

/-- What a leader has committed of its own proposals, it has committed in its own term. -/
theorem committed_in_term {h : Hist} (I : HInv m h) (S : Sim m h s) (C : CommitInv s) {n : NodeId}
    {e : LogEntry} (P : ProposedBy h n e) (hterm : (s.servers n).raft.currentTerm = e.term)
    (hle : e.index ≤ (s.servers n).raft.commitIndex) :
    ∃ N L, Event.advanced n e.term N L ∈ s.history ∧ e.index ≤ N := by
  obtain ⟨L₀, hled⟩ := S.history.recorded n e.term P.1
  have hbehind := S.stood_lt I P hled
  rcases C.backed n with h0 | ⟨c, T, N, L, hadv, hT, hN⟩
  · have hpos := P.2.1
    omega
  · rw [hterm] at hT
    rcases Nat.lt_or_eq_of_le hT with hlt | rfl
    · -- what earlier leaders have committed is in the log that this one was elected with
      obtain ⟨hpre, hNL⟩ := S.leader_complete I hadv hled hlt
      have hlen := hpre.length_le
      rw [List.length_take, Nat.min_eq_left hNL] at hlen
      omega
    · have hc := (S.history.events _ hadv).1
      rw [P.1] at hc
      cases hc
      exact ⟨N, L, hadv, by omega⟩

/-- **Every acknowledged write is committed, in its own term.** -/
theorem run_ackedCommitted {l : NodeId} (hr : Run m hash (readsReflect m l) s) :
    ∀ n e L, Event.proposeReturned n e .Ok L ∈ s.history →
      ∃ N L', Event.advanced n e.term N L' ∈ s.history ∧ e.index ≤ N := by
  induction hr with
  | init => intro n e L hmem; cases hmem
  | step hr ha hs ih =>
    intro n e L hmem
    obtain ⟨evs, hhist, hcause⟩ := move_events (step_move hs)
    rw [hhist] at hmem ⊢
    rcases List.mem_append.mp hmem with h₁ | h₁
    · obtain ⟨N, L', hadv, hN⟩ := ih n e L h₁
      exact ⟨N, L', List.mem_append_left _ hadv, hN⟩
    · obtain ⟨thread, timedOut, w, rfl, hw, hstage, rfl, _, hres⟩ := hcause _ h₁
      obtain ⟨h, I, S⟩ := run_simulated hr
      have hle := RaftNode.proposeResult_ok hres
      obtain ⟨N, L', hadv, hN⟩ := committed_in_term I S (run_commitInv hr)
        (S.writes n w (List.mem_of_getElem? hw) e hstage)
        (acksInTerm_writeStep ha.2.1 hw hstage hle)
        (readsCaughtUp_writeStep ha.1 hw hstage hle)
      exact ⟨N, L', List.mem_append_left _ hadv, hN⟩

/-- **A store is what its node has applied**, while the node is not started again. -/
theorem run_replayed {ok : Cluster → Action → Prop} {l : NodeId}
    (hok : ∀ s a, ok s a → a ≠ .act l .restart) (hr : Run m hash ok s) :
    (s.servers l).raft.storage.kv =
      replay (ShardedKV.empty hash) (s.servers l).raft.storage.applied := by
  induction hr with
  | init => rfl
  | step hr ha hs ih =>
    obtain ⟨h, I, S⟩ := run_simulated hr
    obtain ⟨n, r', evs, E, hn, hother, _⟩ := move_effect (step_move hs)
    refine forall_effect hn hother
      (P := fun k r => k = l → r.storage.kv = replay (ShardedKV.empty hash) r.storage.applied)
      ?_ (fun k _ hk => hk ▸ ih) l rfl
    rintro rfl
    cases E.store I S with
    | same _ hst => rw [hst, ih]
    | applied hst => rw [hst, replay_append, ← ih]
    | restarted hrestart _ => exact absurd hrestart (hok _ _ ha)

/-- **A read is answered from committed entries**, as many as the node has applied. -/
theorem run_readAnswered {l : NodeId} (hr : Run m hash (readsReflect m l) s) :
    ∀ key invokedAt start applied resp,
      Event.readDone l key invokedAt start true applied resp ∈ s.history →
        ∃ T P, Certified s.history T P ∧ P.length = applied ∧
          resp = getResponse (replay (ShardedKV.empty hash) P) key := by
  induction hr with
  | init => intro _ _ _ _ _ hmem; cases hmem
  | step hr ha hs ih =>
    intro key invokedAt start applied resp hmem
    obtain ⟨evs, hhist, hcause⟩ := move_events (step_move hs)
    rw [hhist] at hmem ⊢
    rcases List.mem_append.mp hmem with h₁ | h₁
    · obtain ⟨T, P, hP, hrest⟩ := ih key invokedAt start applied resp h₁
      exact ⟨T, P, hP.mono (Nat.le_refl _), hrest⟩
    · obtain ⟨thread, rd, rfl, _, _, rfl, rfl, rfl, rfl⟩ := hcause _ h₁
      have Z := run_settled (fun _ _ h => h.2.2) hr
      have hkv := run_replayed (fun _ _ h => h.2.2.ne_restart) hr
      refine ⟨_, _, Z.certified.mono (Nat.le_refl _), ?_, ?_⟩
      · rw [List.length_take, Nat.min_eq_left Z.commit_le, Z.lastApplied]
      · rw [hkv, Z.applied]

/-- What a GET answers when `e` is the last entry of its key that has been applied. -/
def answerOf (e : LogEntry) : ClientResponse :=
  match e.op with
  | .kSet => { status := .kOk, value := e.value }
  | .kDelete => { status := .kNotFound }

/-- The last entry of a key, from some entry of the key on. -/
theorem exists_last_of_key {e : LogEntry} : ∀ {i : Nat} {P : List LogEntry}, P[i]? = some e →
    ∃ j x before after, i ≤ j ∧ P[j]? = some x ∧ x.key = e.key ∧ P = before ++ x :: after ∧
      ∀ y ∈ after, y.key ≠ e.key := by
  intro i P
  induction P using List.reverseRecOn with
  | nil => intro h; cases h
  | append_singleton P y ih =>
    intro h
    by_cases hy : y.key = e.key
    · refine ⟨P.length, y, P, [], ?_, by simp, hy, rfl, fun _ h => (by cases h)⟩
      have hlt := (List.getElem?_eq_some_iff.mp h).1
      rw [List.length_append, List.length_singleton] at hlt
      omega
    · -- the entry itself is not the one at the end
      have hlt : i < P.length := by
        by_contra hge
        have hlen := (List.getElem?_eq_some_iff.mp h).1
        rw [List.length_append, List.length_singleton] at hlen
        rw [show i = P.length by omega, List.getElem?_concat_length] at h
        cases h
        exact hy rfl
      rw [List.getElem?_append_left hlt] at h
      obtain ⟨j, x, before, after, hij, hx, hkey, hP, hafter⟩ := ih h
      refine ⟨j, x, before, after ++ [y], hij, ?_, hkey, by rw [hP]; simp, ?_⟩
      · rw [List.getElem?_append_left (List.getElem?_eq_some_iff.mp hx).1, hx]
      · intro z hz
        rcases List.mem_append.mp hz with hz | hz
        · exact hafter z hz
        · rw [List.mem_singleton.mp hz]
          exact hy

theorem getResponse_replay_last (kv : ShardedKV) {before after : List LogEntry} {x : LogEntry}
    (hkey : x.key ≠ []) (hafter : ∀ y ∈ after, y.key ≠ x.key) :
    getResponse (replay kv (before ++ x :: after)) x.key = answerOf x := by
  have hcontents : (replay kv (before ++ x :: after)).contents x.key =
      contentsAfter (replay kv before).contents x x.key := by
    rw [replay_append, ← contents_applyRecord _ hkey]
    exact contents_replay_of_ne (applyRecord (replay kv before) x) hafter
  rw [getResponse_eq hkey, hcontents, contentsAfter, Function.update_self, answerOf]
  cases x.op <;> rfl

end NeuralKV
