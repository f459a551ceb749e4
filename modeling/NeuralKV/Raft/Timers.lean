import NeuralKV.Raft.Terms

/-!
# The timers of a Raft node

Model of `RunLoop`, `ResetElectionDeadlineLocked` and `RandomElectionTimeout` of
`src/raft/node.cpp` on top of the cluster: every node has its election deadline, its heartbeat time
and the program point of its background thread.  `StartElection` is called by that thread only,
some time after a look at the clock that found the deadline passed; whatever else the nodes do, they
do at any time, as in `NeuralKV.Raft.Cluster`.

* `TimedCluster.step`, `TimedMove` — one pass of `RunLoop` in its lock scopes, and the steps of the
  cluster with the deadlines they reset.
* `timed_refines` — a run with timers is a run of the cluster, so all that holds there holds here.
* `term_bounded_by_time` — **terms grow no faster than the clock**: after `t` milliseconds no term
  is above `t / 250` for each member, with crashes and restarts.
* `leader_stays_while_heard` — **a leader that is heard stays**: as long as every other node is
  reached within 250 ms, nobody stands for election and the leader keeps its term.
-/

set_option autoImplicit false

namespace NeuralKV

open Consensus Cluster
open Runs (anyStep exists_run)

/-- `kTickInterval` in milliseconds. -/
def kTickInterval : Nat := 15

/-- `kElectionTimeoutMin` in milliseconds. -/
def kElectionTimeoutMin : Nat := 250

/-- `kElectionTimeoutMax` in milliseconds. -/
def kElectionTimeoutMax : Nat := 400

/-! ## The model -/

/-- Where the background thread is in `RunLoop`. -/
inductive LoopPoint where
  /-- In `sleep_for`, not to wake up before the given time. -/
  | sleeping (wake : Nat)
  /-- In a round of heartbeats, with the peers that are still to be called. -/
  | heartbeat (todo : List NodeId)
  /-- `election_timed_out` is set and `StartElection` not yet called. -/
  | timedOut
  /-- In `StartElection`. -/
  | electing
  deriving DecidableEq, Repr

structure Timer where
  electionDeadline : Nat
  nextHeartbeat : Nat := 0
  point : LoopPoint := .sleeping kTickInterval
  /-- History: when the deadline was last set. -/
  resetAt : Nat := 0
  deriving DecidableEq, Repr

/-- Whether handling a request gets to `ResetElectionDeadlineLocked`. -/
def RaftNode.hears (node : RaftNode) : Request → Bool
  | .requestVote req =>
    decide (node.currentTerm < req.term) || (node.handleRequestVote req).2.voteGranted
  | .appendEntries req => decide (node.currentTerm ≤ req.term)

/-- Whether a step from `s` to `s'` resets the deadline of node `n`. -/
def Cluster.resetsDeadline (s s' : Cluster) (n : NodeId) : Action → Bool
  | .tick _ => false
  | .deliver rpc =>
    match s.rpcs[rpc]? with
    | none => false
    | some r => r.callee == n && (s.servers n).raft.hears r.req
  | .act k .startElection => k == n
  | .act k .restart => k == n
  -- a reply of a later term: BecomeFollowerLocked
  | .act k _ =>
    k == n && decide ((s.servers n).raft.currentTerm < (s'.servers n).raft.currentTerm)

/-- Whether a step runs `BecomeLeaderLocked` at node `n`. -/
def Cluster.elects (s s' : Cluster) (n : NodeId) : Bool :=
  decide ((s.servers n).raft.state ≠ .kLeader ∧ (s'.servers n).raft.state = .kLeader)

/-- The background thread of `n` after a step. -/
def LoopPoint.after (point : LoopPoint) (s' : Cluster) (n : NodeId) : Action → LoopPoint
  | .act k .startElection => if k = n then .electing else point
  | .act k .restart => if k = n then .sleeping (s'.clock + kTickInterval) else point
  | _ =>
    -- StartElection has returned
    if point = .electing ∧ (s'.servers n).election = none then
      .sleeping (s'.clock + kTickInterval)
    else point

/-- The timer of node `n` after a step from `s` to `s'`; `timeout` is what
`RandomElectionTimeout` returned, should it have been called. -/
def Timer.after (timer : Timer) (s s' : Cluster) (n : NodeId) (a : Action) (timeout : Nat) :
    Timer where
  electionDeadline :=
    if s.resetsDeadline s' n a then s.clock + timeout else timer.electionDeadline
  nextHeartbeat := if s.elects s' n then s.clock else timer.nextHeartbeat
  point := timer.point.after s' n a
  resetAt := if s.resetsDeadline s' n a then s.clock else timer.resetAt

structure TimedCluster where
  cluster : Cluster
  timers : NodeId → Timer
  /-- History: the nodes that have called `StartElection`. -/
  elections : List NodeId := []

inductive TimedAction where
  /-- The lock scope of `RunLoop`. -/
  | look (n : NodeId)
  /-- The next call of a round of heartbeats, or its end. -/
  | beat (n : NodeId)
  | step (a : Action) (timeout : Nat)
  deriving DecidableEq, Repr

/-- The node that calls `StartElection`. -/
def Action.stands : Action → List NodeId
  | .act n .startElection => [n]
  | _ => []

namespace TimedCluster

/-- Every node constructed at time `0`, with its first random timeout. -/
def start (hash : Bytes → Nat) (timeouts : NodeId → Nat) : TimedCluster where
  cluster := Cluster.init hash
  timers n := { electionDeadline := timeouts n }

def setTimer (t : TimedCluster) (n : NodeId) (timer : Timer) : TimedCluster :=
  { t with timers := Function.update t.timers n timer }

/-- **What holds of the new timer of `n`, and of every other one as it was, holds of every
timer.** -/
theorem forall_setTimer {t : TimedCluster} {n : NodeId} {timer : Timer} {P : NodeId → Timer → Prop}
    (self : P n timer) (other : ∀ k, k ≠ n → P k (t.timers k)) (k : NodeId) :
    P k ((t.setTimer n timer).timers k) :=
  (Function.forall_update_iff t.timers P).mpr ⟨self, other⟩ k

/-- What the lock scope of `RunLoop` leaves behind. -/
def looked (m : Membership) (t : TimedCluster) (n : NodeId) : Timer :=
  let timer := t.timers n
  let now := t.cluster.clock
  if (t.cluster.servers n).raft.state = .kLeader then
    if timer.nextHeartbeat ≤ now then
      { timer with
        nextHeartbeat := now + kHeartbeatInterval
        point := .heartbeat (m.configOf n).otherPeers }
    else { timer with point := .sleeping (now + kTickInterval) }
  else if timer.electionDeadline ≤ now then { timer with point := .timedOut }
  else { timer with point := .sleeping (now + kTickInterval) }

def step (m : Membership) (t : TimedCluster) : TimedAction → Option TimedCluster
  | .look n =>
    match (t.timers n).point with
    | .sleeping wake =>
      if n ∈ m.ids ∧ (t.cluster.servers n).up ∧ wake ≤ t.cluster.clock then
        some (t.setTimer n (t.looked m n))
      else none
    | _ => none
  | .beat n =>
    match (t.timers n).point with
    | .heartbeat [] =>
      some (t.setTimer n
        { t.timers n with point := .sleeping (t.cluster.clock + kTickInterval) })
    | .heartbeat (peer :: todo) =>
      match t.cluster.step m (.act n (.replicate peer)) with
      | none => none
      | some c =>
        some { t.setTimer n { t.timers n with point := .heartbeat todo } with cluster := c }
    | _ => none
  | .step a timeout =>
    if kElectionTimeoutMin ≤ timeout ∧ timeout ≤ kElectionTimeoutMax ∧
        ∀ n ∈ a.stands, (t.timers n).point = .timedOut then
      match t.cluster.step m a with
      | none => none
      | some c =>
        some
          { cluster := c
            timers := fun n => (t.timers n).after t.cluster c n a timeout
            elections := t.elections ++ a.stands }
    else none

end TimedCluster

/-! ## What a step can do -/

inductive TimedMove (m : Membership) (t : TimedCluster) : TimedAction → TimedCluster → Prop where
  | looked {n : NodeId} {wake : Nat} (hpoint : (t.timers n).point = .sleeping wake) :
      TimedMove m t (.look n) (t.setTimer n (t.looked m n))
  | rested {n : NodeId} (hpoint : (t.timers n).point = .heartbeat []) :
      TimedMove m t (.beat n) (t.setTimer n
        { t.timers n with point := .sleeping (t.cluster.clock + kTickInterval) })
  | beaten {n peer : NodeId} {todo : List NodeId} {c : Cluster}
      (hpoint : (t.timers n).point = .heartbeat (peer :: todo))
      (hc : t.cluster.step m (.act n (.replicate peer)) = some c) :
      TimedMove m t (.beat n)
        { t.setTimer n { t.timers n with point := .heartbeat todo } with cluster := c }
  | stepped {a : Action} {timeout : Nat} {c : Cluster} (hmin : kElectionTimeoutMin ≤ timeout)
      (hmax : timeout ≤ kElectionTimeoutMax)
      (hstands : ∀ n ∈ a.stands, (t.timers n).point = .timedOut)
      (hc : t.cluster.step m a = some c) :
      TimedMove m t (.step a timeout)
        { cluster := c
          timers := fun n => (t.timers n).after t.cluster c n a timeout
          elections := t.elections ++ a.stands }

theorem timed_move {m : Membership} {t t' : TimedCluster} {b : TimedAction}
    (hs : t.step m b = some t') : TimedMove m t b t' := by
  cases b with
  | look n =>
    simp only [TimedCluster.step] at hs
    split at hs
    · split at hs
      · rename_i hpoint _
        cases hs
        exact .looked hpoint
      · cases hs
    · cases hs
  | beat n =>
    simp only [TimedCluster.step] at hs
    split at hs
    · cases hs
      exact .rested ‹_›
    · split at hs
      · cases hs
      · cases hs
        exact .beaten ‹_› ‹_›
    · cases hs
  | step a timeout =>
    simp only [TimedCluster.step] at hs
    split at hs
    · rename_i hguard
      split at hs
      · cases hs
      · cases hs
        exact .stepped hguard.1 hguard.2.1 hguard.2.2 ‹_›
    · cases hs

section Runs

variable {m : Membership} {hash : Bytes → Nat} {timeouts : NodeId → Nat} {t t' : TimedCluster}

/-- **A run with timers is a run of the cluster.** -/
theorem timed_refines {ok : TimedCluster → TimedAction → Prop}
    (hr : Runs.Run (TimedCluster.step m) (.start hash timeouts) ok t) :
    Run m hash anyStep t.cluster := by
  induction hr with
  | init => exact .init
  | step _ _ hs ih =>
    cases timed_move hs with
    | looked _ => exact ih
    | rested _ => exact ih
    | beaten _ hc => exact ih.step trivial hc
    | stepped _ _ _ hc => exact ih.step trivial hc

end Runs

/-! ## Terms and elections -/

section Terms

variable {m : Membership} {h : Hist} {s s' : Cluster} {a : Action} {B : Nat}

/-- No node and no reply has got beyond term `B`. -/
structure TermsUpTo (s : Cluster) (B : Nat) : Prop where
  nodes : ∀ n, (s.servers n).raft.currentTerm ≤ B
  replies : ∀ p ∈ s.replies, p.2.term ≤ B

/-- A request is not ahead of its sender. -/
theorem Sim.rpc_term_le (I : HInv m h) (S : Sim m h s) {r : Rpc} (hr : r ∈ s.rpcs) :
    r.req.term ≤ (s.servers r.caller).raft.currentTerm := by
  have R := (S.rpcs r hr).1
  rw [← (S.node r.caller).cur]
  cases hreq : r.req with
  | requestVote req =>
    obtain ⟨_, L, hL, _⟩ := R.vote req hreq
    exact (I.stood_le _ _ L hL).2.1
  | appendEntries req => exact (I.elected _ _ (R.append req hreq).leads).reached

theorem TermsUpTo.carried (U : TermsUpTo s B) (I : HInv m h) (S : Sim m h s) {T : Nat}
    (hcarried : s.Carries T) : T ≤ B := by
  rcases hcarried with ⟨r, hr, rfl⟩ | ⟨p, hp, rfl⟩
  · exact Nat.le_trans (S.rpc_term_le I hr) (U.nodes r.caller)
  · exact U.replies p hp

/-- **Only `StartElection` makes a new term.** -/
theorem TermsUpTo.move (U : TermsUpTo s B) (I : HInv m h) (S : Sim m h s) (mv : Move m s a s') :
    TermsUpTo s' (B + a.stands.length) := by
  have hnodes : ∀ n, (s'.servers n).raft.currentTerm ≤ B + a.stands.length := by
    intro n
    have hn := U.nodes n
    cases move_term S mv n with
    | kept hterm _ _ => omega
    | observed hcarried _ _ => exact Nat.le_add_right_of_le (U.carried I S hcarried)
    | heard hr hreq _ hterm _ _ =>
      have hcarried := carries_of_rpc hr
      rw [hreq] at hcarried
      rw [hterm]
      exact Nat.le_add_right_of_le (U.carried I S hcarried)
    | stood ha hterm _ =>
      subst ha
      rw [hterm]
      exact Nat.succ_le_succ hn
    | elected _ hterm _ _ => omega
  refine ⟨hnodes, fun p hp => ?_⟩
  rcases move_replied mv p hp with hold | ⟨n, hnew⟩
  · exact Nat.le_add_right_of_le (U.replies p hold)
  · rw [hnew]
    exact hnodes n

end Terms

/-- A list over `ids` is no longer than its members are many, each as often as it may occur. -/
theorem length_le_of_count_le {α : Type} [DecidableEq α] {K : Nat} :
    ∀ {ids l : List α}, (∀ x ∈ l, x ∈ ids) → (∀ x, l.count x ≤ K) → l.length ≤ ids.length * K
  | [], l, hmem, _ => by
    cases l with
    | nil => exact Nat.zero_le _
    | cons x l => exact absurd (hmem x List.mem_cons_self) (by simp)
  | id :: ids, l, hmem, hcount => by
    have hrest : (l.filter (· != id)).length ≤ ids.length * K := length_le_of_count_le
      (by
        intro x hx
        obtain ⟨hx, hne⟩ := List.mem_filter.mp hx
        exact (List.mem_cons.mp (hmem x hx)).resolve_left (by simpa using hne))
      (fun x => Nat.le_trans (List.filter_sublist.count_le x) (hcount x))
    have hsplit : l.length = l.count id + (l.filter (· != id)).length := by
      rw [List.count, List.countP_eq_length_filter]
      exact List.length_eq_length_filter_add (fun x => x == id)
    have hid := hcount id
    rw [List.length_cons, Nat.succ_mul]
    omega

/-- The bookkeeping of elections: a node waits out the shortest timeout before each of its calls of
`StartElection`. -/
structure Paced (m : Membership) (t : TimedCluster) : Prop where
  members : ∀ n ∈ t.elections, n ∈ m.ids
  count : ∀ n, kElectionTimeoutMin * t.elections.count n ≤ t.cluster.clock
  deadline : ∀ n, kElectionTimeoutMin * (t.elections.count n + 1) ≤ (t.timers n).electionDeadline
  due : ∀ n, (t.timers n).point = .timedOut →
    kElectionTimeoutMin * (t.elections.count n + 1) ≤ t.cluster.clock
  terms : TermsUpTo t.cluster t.elections.length

theorem Action.mem_stands {a : Action} {n : NodeId} (hn : n ∈ a.stands) :
    a = .act n .startElection := by
  unfold Action.stands at hn
  split at hn
  · rw [List.mem_singleton.mp hn]
  · cases hn

theorem LoopPoint.after_timedOut {point : LoopPoint} {s' : Cluster} {n : NodeId} {a : Action}
    (h : point.after s' n a = .timedOut) : point = .timedOut ∧ n ∉ a.stands := by
  unfold LoopPoint.after at h
  split at h
  · split at h
    · cases h
    · rename_i hne
      exact ⟨h, fun hn => hne (List.mem_singleton.mp hn).symm⟩
  · split at h
    · cases h
    · exact ⟨h, fun hn => by cases hn⟩
  · rename_i hstart _
    split at h
    · cases h
    · refine ⟨h, fun hn => hstart n (Action.mem_stands hn)⟩

section Pace

variable {m : Membership} {hash : Bytes → Nat} {timeouts : NodeId → Nat} {t t' : TimedCluster}

theorem clock_move {s s' : Cluster} {a : Action} (mv : Move m s a s') : s.clock ≤ s'.clock := by
  cases mv with
  | tick d => exact Nat.le_add_right _ _
  | _ => exact Nat.le_refl _

theorem startElection_member {s s' : Cluster} {n : NodeId}
    (hs : s.step m (.act n .startElection) = some s') : n ∈ m.ids := by
  cases step_move hs with
  | startElection hn _ _ => exact hn

/-- The deadline and the count of one node after a step of the cluster. -/
theorem Paced.stepped (P : Paced m t) {a : Action} {timeout : Nat} {c : Cluster}
    (hmin : kElectionTimeoutMin ≤ timeout)
    (hstands : ∀ n ∈ a.stands, (t.timers n).point = .timedOut) (hclock : t.cluster.clock ≤ c.clock)
    (n : NodeId) :
    kElectionTimeoutMin * (t.elections ++ a.stands).count n ≤ c.clock ∧
      kElectionTimeoutMin * ((t.elections ++ a.stands).count n + 1) ≤
        ((t.timers n).after t.cluster c n a timeout).electionDeadline := by
  have hcount := P.count n
  have hdeadline := P.deadline n
  by_cases hn : n ∈ a.stands
  · -- the node has waited since its last election
    have hdue := P.due n (hstands n hn)
    obtain rfl := Action.mem_stands hn
    have hone : (t.elections ++ (Action.act n .startElection).stands).count n =
        t.elections.count n + 1 := by simp [Action.stands]
    rw [hone]
    refine ⟨Nat.le_trans hdue hclock, ?_⟩
    simp only [Timer.after, Cluster.resetsDeadline, beq_self_eq_true, if_true]
    rw [Nat.mul_succ]
    omega
  · have hsame : (t.elections ++ a.stands).count n = t.elections.count n := by
      rw [List.count_append, List.count_eq_zero.mpr hn, Nat.add_zero]
    rw [hsame]
    refine ⟨Nat.le_trans hcount hclock, ?_⟩
    simp only [Timer.after]
    split
    · rw [Nat.mul_succ]
      omega
    · exact hdeadline

theorem paced_move {h : Hist} (I : HInv m h) (S : Sim m h t.cluster) {b : TimedAction}
    (mv : TimedMove m t b t') (P : Paced m t) : Paced m t' := by
  -- a step that sets one timer and no deadline
  have quiet : ∀ {n : NodeId} {timer : Timer},
      timer.electionDeadline = (t.timers n).electionDeadline →
      (timer.point = .timedOut →
        kElectionTimeoutMin * (t.elections.count n + 1) ≤ t.cluster.clock) →
      Paced m (t.setTimer n timer) := by
    intro n timer hdeadline hdue
    refine ⟨P.members, P.count, ?_, ?_, P.terms⟩
    · exact TimedCluster.forall_setTimer
        (P := fun k timer => kElectionTimeoutMin * (t.elections.count k + 1) ≤
          timer.electionDeadline)
        (by rw [hdeadline]; exact P.deadline n) (fun k _ => P.deadline k)
    · exact TimedCluster.forall_setTimer
        (P := fun k timer => timer.point = .timedOut →
          kElectionTimeoutMin * (t.elections.count k + 1) ≤ t.cluster.clock)
        hdue (fun k _ => P.due k)
  cases mv with
  | @looked n wake hpoint =>
    refine quiet ?_ ?_
    · unfold TimedCluster.looked
      simp only
      repeat' split
      all_goals rfl
    · intro htimed
      unfold TimedCluster.looked at htimed
      simp only at htimed
      repeat' split at htimed
      · cases htimed
      · cases htimed
      · rename_i hdue
        exact Nat.le_trans (P.deadline n) hdue
      · cases htimed
  | rested _ => exact quiet rfl (fun h => by cases h)
  | @beaten n peer todo c hpoint hc =>
    have Q : Paced m (t.setTimer n { t.timers n with point := .heartbeat todo }) :=
      quiet rfl (fun h => by cases h)
    have hmv := step_move hc
    have hclock := clock_move hmv
    exact ⟨Q.members, fun k => Nat.le_trans (Q.count k) hclock, Q.deadline,
      fun k hk => Nat.le_trans (Q.due k hk) hclock, P.terms.move I S hmv⟩
  | @stepped a timeout c hmin hmax hstands hc =>
    have hmv := step_move hc
    have hclock := clock_move hmv
    refine ⟨fun n hn => ?_, fun n => (P.stepped hmin hstands hclock n).1,
      fun n => (P.stepped hmin hstands hclock n).2, fun n hn => ?_, ?_⟩
    · rcases List.mem_append.mp hn with hold | hnew
      · exact P.members n hold
      · rw [Action.mem_stands hnew] at hc
        exact startElection_member hc
    · obtain ⟨hpoint, hnot⟩ := LoopPoint.after_timedOut hn
      rw [List.count_append, List.count_eq_zero.mpr hnot, Nat.add_zero]
      exact Nat.le_trans (P.due n hpoint) hclock
    · rw [List.length_append]
      exact P.terms.move I S hmv

theorem paced_run (htimeouts : ∀ n, kElectionTimeoutMin ≤ timeouts n)
    {ok : TimedCluster → TimedAction → Prop}
    (hr : Runs.Run (TimedCluster.step m) (.start hash timeouts) ok t) : Paced m t := by
  induction hr with
  | init =>
    refine ⟨fun n hn => (by cases hn), fun n => Nat.le_refl 0, fun n => ?_, fun n hn => ?_,
      fun n => Nat.le_refl 0, fun p hp => by cases hp⟩
    · simpa [TimedCluster.start] using htimeouts n
    · simp [TimedCluster.start] at hn
  | step hr _ hs ih =>
    obtain ⟨h, I, S⟩ := run_simulated (timed_refines hr)
    exact paced_move I S (timed_move hs) ih

/-- **Terms grow no faster than the clock**: each member stands at most once in 250 ms, and no
node and no message is ahead of the number of elections. -/
theorem term_bounded_by_time (htimeouts : ∀ n, kElectionTimeoutMin ≤ timeouts n)
    (hr : Runs.Run (TimedCluster.step m) (.start hash timeouts) anyStep t) :
    (∀ n, t.elections.count n ≤ t.cluster.clock / kElectionTimeoutMin) ∧
      (∀ n, (t.cluster.servers n).raft.currentTerm ≤
        m.ids.length * (t.cluster.clock / kElectionTimeoutMin)) ∧
      ∀ T, t.cluster.Carries T → T ≤ m.ids.length * (t.cluster.clock / kElectionTimeoutMin) := by
  have P := paced_run htimeouts hr
  obtain ⟨h, I, S⟩ := run_simulated (timed_refines hr)
  have hcount : ∀ n, t.elections.count n ≤ t.cluster.clock / kElectionTimeoutMin := by
    intro n
    rw [Nat.le_div_iff_mul_le (by decide), Nat.mul_comm]
    exact P.count n
  have hall : t.elections.length ≤ m.ids.length * (t.cluster.clock / kElectionTimeoutMin) :=
    length_le_of_count_le P.members hcount
  exact ⟨hcount, fun n => Nat.le_trans (P.terms.nodes n) hall,
    fun T hT => Nat.le_trans (P.terms.carried I S hT) hall⟩

/-- Node 1 stands after 251 ms and wins; node 3 hears of it in no way and stands twice. -/
theorem term_bounded_by_time_twoElections :
    ∃ t,
      Runs.Run (TimedCluster.step Membership.trio) (.start (fun _ => 0) (fun _ => 250)) anyStep t ∧
      t.elections = [1, 3, 3] ∧ (t.cluster.servers 3).raft.currentTerm = 2 ∧
      t.cluster.clock = 520 ∧ (t.cluster.servers 3).raft.currentTerm ≤ 3 * (520 / 250) := by
  obtain ⟨t, hr, ht⟩ : ∃ t,
      Runs.Run (TimedCluster.step Membership.trio) (.start (fun _ => 0) (fun _ => 250)) anyStep t ∧
      decide (t.elections = [1, 3, 3] ∧ (t.cluster.servers 3).raft.currentTerm = 2 ∧
        t.cluster.clock = 520) = true :=
    exists_run
      ([.step (.tick 251) 250, .look 1] ++ electFirst.map (.step · 260) ++
        [.look 3, .step (.act 3 .startElection) 250, .step (.act 3 .callVoter) 250,
          .step (.act 3 .voteLost) 250, .step (.act 3 .callVoter) 250, .step (.act 3 .voteLost) 250,
          .step (.act 3 .endElection) 250, .step (.tick 269) 250, .look 3,
          .step (.act 3 .startElection) 300]) (by decide +kernel)
  obtain ⟨helections, hterm, hclock⟩ := of_decide_eq_true ht
  refine ⟨t, hr, helections, hterm, hclock, ?_⟩
  have hbound := (term_bounded_by_time (fun _ => by decide) hr).2.1 3
  rw [hclock] at hbound
  exact hbound

end Pace

/-! ## A leader that is heard -/

section Stability

variable {m : Membership} {hash : Bytes → Nat} {timeouts : NodeId → Nat} {t t' : TimedCluster}

/-- A reply is not ahead of all nodes. -/
theorem reply_reached {s : Cluster} (hr : Run m hash anyStep s) :
    ∀ p ∈ s.replies, ∃ n, p.2.term ≤ (s.servers n).raft.currentTerm := by
  induction hr with
  | init => exact fun p hp => by cases hp
  | step hr _ hs ih =>
    obtain ⟨h, I, S⟩ := run_simulated hr
    have mv := step_move hs
    intro p hp
    rcases move_replied mv p hp with hold | ⟨n, hnew⟩
    · obtain ⟨n, hn⟩ := ih p hold
      exact ⟨n, Nat.le_trans hn (move_term S mv n).le⟩
    · exact ⟨n, Nat.le_of_eq hnew⟩

theorem up_move {s s' : Cluster} {a : Action} (mv : Move m s a s') {n : NodeId}
    (hup : (s.servers n).up = true) (ha : a ≠ .act n .crash) : (s'.servers n).up = true := by
  have kept : ∀ {k : NodeId} {srv : Server}, (k = n → srv.up = true) →
      (Function.update s.servers k srv n).up = true :=
    fun hsrv => forall_update (P := fun j p => j = n → p.up = true)
      hsrv (fun _ _ hj => hj ▸ hup) n rfl
  cases mv with
  | tick d => exact hup
  | replicateIdle _ => exact hup
  | crash _ _ => exact kept (fun hk => absurd (hk ▸ rfl) ha)
  | restart _ _ _ => exact kept (fun _ => rfl)
  | _ => exact kept (fun hk => hk ▸ hup)

/-- Whoever is not a member is as in the beginning. -/
theorem outsider_run {s : Cluster} (hr : Run m hash anyStep s) {n : NodeId} (hn : n ∉ m.ids) :
    s.servers n = (Cluster.init hash).servers n := by
  induction hr with
  | init => rfl
  | @step s _ _ hr _ hs ih =>
    obtain ⟨h, I, S⟩ := run_simulated hr
    have kept : ∀ {k : NodeId} {srv : Server}, k ∈ m.ids →
        Function.update s.servers k srv n = (Cluster.init hash).servers n :=
      fun hk => (Function.update_of_ne (ne_of_mem_of_not_mem hk hn).symm _ _).trans ih
    cases step_move hs with
    | tick d => exact ih
    | replicateIdle _ => exact ih
    | requestVote _ hr _ _ => exact kept (S.rpcs _ (List.mem_of_getElem? hr)).1.callee
    | appendEntries _ hr _ _ => exact kept (S.rpcs _ (List.mem_of_getElem? hr)).1.callee
    | _ => exact kept ‹_ ∈ m.ids›

/-- A deadline leaves the node the shortest timeout. -/
theorem deadline_run (htimeouts : ∀ n, kElectionTimeoutMin ≤ timeouts n)
    {ok : TimedCluster → TimedAction → Prop}
    (hr : Runs.Run (TimedCluster.step m) (.start hash timeouts) ok t) (n : NodeId) :
    (t.timers n).resetAt + kElectionTimeoutMin ≤ (t.timers n).electionDeadline := by
  induction hr generalizing n with
  | init => simpa [TimedCluster.start] using htimeouts n
  | @step t t' b _ _ hs ih =>
    have set : ∀ {k : NodeId} {timer : Timer}, timer.resetAt = (t.timers k).resetAt →
        timer.electionDeadline = (t.timers k).electionDeadline →
        ((t.setTimer k timer).timers n).resetAt + kElectionTimeoutMin ≤
          ((t.setTimer k timer).timers n).electionDeadline :=
      fun {k _} hreset hdeadline => TimedCluster.forall_setTimer
        (P := fun _ timer => timer.resetAt + kElectionTimeoutMin ≤ timer.electionDeadline)
        (by rw [hreset, hdeadline]; exact ih k) (fun k _ => ih k) n
    cases timed_move hs with
    | looked _ =>
      refine set ?_ ?_ <;> unfold TimedCluster.looked <;> simp only <;> repeat' split
      all_goals rfl
    | rested _ => exact set rfl rfl
    | beaten _ _ => exact set rfl rfl
    | stepped hmin _ _ _ =>
      simp only [Timer.after]
      split
      · exact Nat.add_le_add_left hmin _
      · exact ih n

/-- Every node other than a leader has been reached within the last 250 ms whenever it looks at the
clock, and the process of `leader` does not end. -/
def heardInTime (leader : NodeId) (t : TimedCluster) : TimedAction → Prop
  | .look n => (t.cluster.servers n).raft.state = .kLeader ∨
      t.cluster.clock < (t.timers n).resetAt + kElectionTimeoutMin
  | .step a _ => a ≠ .act leader .crash
  | .beat _ => True

instance (leader : NodeId) (t : TimedCluster) :
    (b : TimedAction) → Decidable (heardInTime leader t b)
  | .look n => inferInstanceAs (Decidable ((t.cluster.servers n).raft.state = .kLeader ∨
      t.cluster.clock < (t.timers n).resetAt + kElectionTimeoutMin))
  | .step a _ => inferInstanceAs (Decidable (a ≠ .act leader .crash))
  | .beat _ => instDecidableTrue

/-- `leader` leads term `T`, the latest there is, and nobody is about to stand. -/
structure Steady (m : Membership) (leader : NodeId) (T : Nat) (t : TimedCluster) : Prop where
  up : (t.cluster.servers leader).up = true
  leads : (t.cluster.servers leader).raft.state = .kLeader
  term : (t.cluster.servers leader).raft.currentTerm = T
  latest : TermsUpTo t.cluster T
  idle : ∀ n ∈ m.ids, (t.timers n).point ≠ .timedOut

/-- The leader after a step in which nobody stands. -/
theorem Steady.kept {leader : NodeId} {T : Nat} (hsteady : Steady m leader T t) {h : Hist}
    (I : HInv m h) (S : Sim m h t.cluster) {a : Action} {c : Cluster}
    (mv : Move m t.cluster a c) (hstands : a.stands = []) (hcrash : a ≠ .act leader .crash) :
    (c.servers leader).up = true ∧ (c.servers leader).raft.state = .kLeader ∧
      (c.servers leader).raft.currentTerm = T ∧ TermsUpTo c T := by
  have hup := up_move mv hsteady.up hcrash
  have U := hsteady.latest.move I S mv
  rw [hstands] at U
  have hrestart : a ≠ .act leader .restart := by
    rintro rfl
    cases mv with
    | restart _ hdown _ =>
      rw [hsteady.up] at hdown
      cases hdown
  have hle := U.nodes leader
  refine ⟨hup, ?_, ?_, U⟩
  · cases move_term S mv leader with
    | kept _ _ hlead => exact hlead hsteady.leads hrestart
    | observed _ hlt _ =>
      rw [hsteady.term] at hlt
      exact absurd hle (Nat.not_le.mpr hlt)
    | heard _ _ _ hterm _ hlead =>
      rw [hterm] at hle
      exact hlead hsteady.leads (by rw [hsteady.term]; exact hle)
    | stood ha _ _ =>
      rw [ha] at hstands
      cases hstands
    | elected _ _ hstate _ => exact hstate
  · have hge := (move_term S mv leader).le
    rw [hsteady.term] at hge
    exact Nat.le_antisymm hle hge

theorem steady_move {leader : NodeId} {T : Nat} (hsteady : Steady m leader T t) {h : Hist}
    (I : HInv m h) (S : Sim m h t.cluster)
    (hdeadline : ∀ n, (t.timers n).resetAt + kElectionTimeoutMin ≤ (t.timers n).electionDeadline)
    {b : TimedAction} (ha : heardInTime leader t b) (mv : TimedMove m t b t') :
    Steady m leader T t' ∧ t'.elections = t.elections := by
  have idle_set : ∀ {n : NodeId} {timer : Timer}, timer.point ≠ .timedOut →
      ∀ k ∈ m.ids, ((t.setTimer n timer).timers k).point ≠ .timedOut :=
    fun htimer => TimedCluster.forall_setTimer (P := fun k timer => k ∈ m.ids →
      timer.point ≠ .timedOut) (fun _ => htimer) (fun k _ => hsteady.idle k)
  cases mv with
  | @looked n wake hpoint =>
    refine ⟨⟨hsteady.up, hsteady.leads, hsteady.term, hsteady.latest, idle_set ?_⟩, rfl⟩
    have hn := hdeadline n
    unfold TimedCluster.looked
    simp only
    split
    · split
      · simp
      · simp
    · rename_i hfollower
      have hrecent := ha.resolve_left hfollower
      rw [if_neg (by omega)]
      simp
  | rested _ =>
    exact ⟨⟨hsteady.up, hsteady.leads, hsteady.term, hsteady.latest, idle_set (by simp)⟩, rfl⟩
  | beaten _ hc =>
    obtain ⟨hup, hleads, hterm, U⟩ := hsteady.kept I S (step_move hc) rfl (by simp)
    exact ⟨⟨hup, hleads, hterm, U, idle_set (by simp)⟩, rfl⟩
  | @stepped a timeout c hmin hmax hstands hc =>
    have hnone : a.stands = [] :=
      List.eq_nil_iff_forall_not_mem.mpr fun n hn =>
        hsteady.idle n (startElection_member (Action.mem_stands hn ▸ hc)) (hstands n hn)
    obtain ⟨hup, hleads, hterm, U⟩ := hsteady.kept I S (step_move hc) hnone ha
    refine ⟨⟨hup, hleads, hterm, U, fun n hmem hn => ?_⟩, by simp [hnone]⟩
    exact hsteady.idle n hmem (LoopPoint.after_timedOut hn).1

/-- **A leader that is heard stays**: where no node has a later term and none is about to stand, and
every other node is reached within 250 ms, nobody calls `StartElection` and the leader keeps its
term. -/
theorem leader_stays_while_heard (htimeouts : ∀ n, kElectionTimeoutMin ≤ timeouts n)
    (hr : Runs.Run (TimedCluster.step m) (.start hash timeouts) anyStep t) {leader : NodeId}
    (hup : (t.cluster.servers leader).up = true)
    (hleads : (t.cluster.servers leader).raft.state = .kLeader)
    (hlatest : ∀ n ∈ m.ids, (t.cluster.servers n).raft.currentTerm ≤
      (t.cluster.servers leader).raft.currentTerm)
    (hidle : ∀ n ∈ m.ids, (t.timers n).point ≠ .timedOut)
    (hr' : Runs.Run (TimedCluster.step m) t (heardInTime leader) t') :
    (t'.cluster.servers leader).up = true ∧
      (t'.cluster.servers leader).raft.state = .kLeader ∧
      (t'.cluster.servers leader).raft.currentTerm =
        (t.cluster.servers leader).raft.currentTerm ∧
      t'.elections = t.elections := by
  have hstart : Steady m leader (t.cluster.servers leader).raft.currentTerm t := by
    have hall : ∀ n, (t.cluster.servers n).raft.currentTerm ≤
        (t.cluster.servers leader).raft.currentTerm := by
      intro n
      by_cases hn : n ∈ m.ids
      · exact hlatest n hn
      · rw [outsider_run (timed_refines hr) hn]
        exact Nat.zero_le _
    refine ⟨hup, hleads, rfl, ⟨hall, fun p hp => ?_⟩, hidle⟩
    obtain ⟨n, hn⟩ := reply_reached (timed_refines hr) p hp
    exact Nat.le_trans hn (hall n)
  have hall : Steady m leader (t.cluster.servers leader).raft.currentTerm t' ∧
      t'.elections = t.elections := by
    induction hr' with
    | init => exact ⟨hstart, rfl⟩
    | step hrun ha hs ih =>
      have hreach := hr.trans (hrun.mono fun _ _ _ => trivial)
      obtain ⟨h, I, S⟩ := run_simulated (timed_refines hreach)
      obtain ⟨hsteady, hsame⟩ :=
        steady_move ih.1 I S (deadline_run htimeouts hreach) ha (timed_move hs)
      exact ⟨hsteady, hsame.trans ih.2⟩
  exact ⟨hall.1.up, hall.1.leads, hall.1.term, hall.2⟩

/-- Node 1 is elected and reaches nodes 2 and 3 in time, so that they look at the clock after 330 ms
and go back to sleep. -/
theorem leader_stays_while_heard_round :
    ∃ t t', Runs.Run (TimedCluster.step Membership.trio) (.start (fun _ => 0) (fun _ => 250))
        anyStep t ∧
      Runs.Run (TimedCluster.step Membership.trio) t (heardInTime 1) t' ∧ t'.cluster.clock = 330 ∧
      (t'.cluster.servers 1).raft.state = .kLeader ∧ t'.elections = t.elections := by
  obtain ⟨t, hr, ht⟩ : ∃ t,
      Runs.Run (TimedCluster.step Membership.trio) (.start (fun _ => 0) (fun _ => 250)) anyStep t ∧
      decide ((t.cluster.servers 1).up = true ∧ (t.cluster.servers 1).raft.state = .kLeader ∧
        (∀ n ∈ Membership.trio.ids, (t.cluster.servers n).raft.currentTerm ≤
          (t.cluster.servers 1).raft.currentTerm) ∧
        (∀ n ∈ Membership.trio.ids, (t.timers n).point ≠ .timedOut) ∧
        (Runs.exec (TimedCluster.step Membership.trio) (heardInTime 1) t
          [.step (.tick 15) 250, .look 1, .beat 1, .step (.deliver 2) 300, .beat 1,
            .step (.deliver 3) 300, .beat 1, .step (.tick 64) 250, .look 2, .look 3]).any
              (fun t' => decide (t'.cluster.clock = 330)) = true) = true :=
    exists_run ([.step (.tick 251) 250, .look 1] ++ electFirst.map (.step · 260))
      (by decide +kernel)
  obtain ⟨hup, hleads, hlatest, hidle, hany⟩ := of_decide_eq_true ht
  obtain ⟨t', hexec, ht'⟩ := Runs.exists_of_any hany
  have hr' := Runs.Run.of_exec _ .init hexec
  obtain ⟨_, hstill, _, hnone⟩ :=
    leader_stays_while_heard (fun _ => by decide) hr hup hleads hlatest hidle hr'
  exact ⟨t, t', hr, hr', of_decide_eq_true ht', hstill, hnone⟩

end Stability

end NeuralKV
