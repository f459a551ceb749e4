import NeuralKV.Raft.FollowerAppend
import NeuralKV.Raft.Leadership
import NeuralKV.Raft.Safety

/-!
# A leader's record of its peers

`ReplicateToPeer` takes a snapshot of `next_index_[peer]`, releases the lock for the RPC and writes
absolute values back when the reply comes.  Several calls for one peer may be on their way.

* `stale_reply_regresses`, `late_refusal_regresses` — replies that are entered out of order take
  `match_index_` back, or `next_index_` below it.
* `InOrder` — a reply is entered only if no newer `AppendEntries` call to that peer has been made in
  the same term.
* `Progress` — the invariant of runs in which all replies are: the newest call to a peer starts at
  the peer's present `next_index_`, and is not refused if the peer has acknowledged all before it.
* `progress_never_regresses` — **in such a run `match_index_` does not decrease during a leadership,
  and `next_index_` stays above it.**
-/

set_option autoImplicit false

namespace NeuralKV

open Consensus Cluster
open Runs (anyStep exec exists_of_any exists_run Run.of_exec)

/-! ## Calls and their order -/

/-- The term of an append request. -/
def Request.appendTerm : Request → Option Nat
  | .requestVote _ => none
  | .appendEntries req => some req.term

namespace Cluster

/-- `r'` is an append call of the same node to the same peer in the same term as `r`. -/
def sameLine (r r' : Rpc) : Bool :=
  r'.caller == r.caller && r'.callee == r.callee && r.req.appendTerm.isSome &&
    r'.req.appendTerm == r.req.appendTerm

/-- No newer append call to the same peer has been made in the same term. -/
def newest (s : Cluster) (rpc : Nat) : Bool :=
  match s.rpcs[rpc]? with
  | none => true
  | some r => (s.rpcs.drop (rpc + 1)).all (fun r' => !sameLine r r')

/-- A reply to `ReplicateToPeer` is entered only for the newest call. -/
def InOrder : Cluster → Action → Prop
  | s, .act _ (.replicateReply rpc) => s.newest rpc = true
  | _, _ => True

instance (s : Cluster) (a : Action) : Decidable (InOrder s a) := by
  unfold InOrder
  split <;> infer_instance

theorem newest_not_sameLine {s : Cluster} {i j : Nat} {r r' : Rpc} (h : s.newest i = true)
    (hr : s.rpcs[i]? = some r) (hr' : s.rpcs[j]? = some r') (hij : i < j) :
    sameLine r r' = false := by
  unfold newest at h
  rw [hr] at h
  have hmem : r' ∈ s.rpcs.drop (i + 1) := by
    refine List.mem_iff_getElem?.mpr ⟨j - (i + 1), ?_⟩
    rw [List.getElem?_drop, show i + 1 + (j - (i + 1)) = j by omega]
    exact hr'
  simpa using List.all_eq_true.mp h r' hmem

/-- **Two calls on one line cannot both be the newest.** -/
theorem newest_unique {s : Cluster} {i j : Nat} {r r' : Rpc} (hi : s.newest i = true)
    (hj : s.newest j = true) (hr : s.rpcs[i]? = some r) (hr' : s.rpcs[j]? = some r')
    (hline : sameLine r r' = true) : i = j := by
  have hback : sameLine r' r = true := by
    unfold sameLine at hline ⊢
    simp only [Bool.and_eq_true, beq_iff_eq, Option.isSome_iff_exists] at hline ⊢
    obtain ⟨⟨⟨h₁, h₂⟩, h₃⟩, h₄⟩ := hline
    exact ⟨⟨⟨h₁.symm, h₂.symm⟩, h₄ ▸ h₃⟩, h₄.symm⟩
  rcases Nat.lt_trichotomy i j with hlt | heq | hlt
  · rw [newest_not_sameLine hi hr hr' hlt] at hline
    cases hline
  · exact heq
  · rw [newest_not_sameLine hj hr' hr hlt] at hback
    cases hback

/-- A call that is the newest after more calls was so before. -/
theorem newest_of_append {s s' : Cluster} {sent : List Rpc} (hs : s'.rpcs = s.rpcs ++ sent)
    {rpc : Nat} (hlt : rpc < s.rpcs.length) (h : s'.newest rpc = true) : s.newest rpc = true := by
  unfold newest at h ⊢
  rw [hs, List.getElem?_append_left hlt, List.drop_append_of_le_length hlt] at h
  split
  · rfl
  · rename_i r hr
    rw [hr] at h
    simp only [List.all_append, Bool.and_eq_true] at h
    exact h.1

end Cluster

section Calls

variable {m : Membership} {h : Hist} {s s' : Cluster} {a : Action} {n : NodeId}

/-- Node `n` has just started call `rpc` of `ReplicateToPeer`. -/
structure Begun (m : Membership) (s s' : Cluster) (n : NodeId) (rpc : Nat) : Prop where
  id : rpc = s.rpcs.length
  call : ∃ peer req, peer ∈ (m.configOf n).otherPeers ∧
    (s.servers n).raft.replicateRequest (m.configOf n) peer = some req ∧
    s'.rpcs[rpc]? = some ⟨n, peer, .appendEntries req, s.history.length⟩
  raft : (s'.servers n).raft = (s.servers n).raft
  replies : s'.replies = s.replies

/-- What a step does to the calls of `ReplicateToPeer` on node `n`. -/
structure CallsMove (m : Membership) (s : Cluster) (a : Action) (s' : Cluster) (n : NodeId) :
    Prop where
  nodup : (s'.servers n).replications.Nodup
  calls : ∀ rpc ∈ (s'.servers n).replications,
    (rpc ∈ (s.servers n).replications ∧ a ≠ .act n (.replicateReply rpc)) ∨ Begun m s s' n rpc

theorem Sim.call_lt (S : Sim m h s) {rpc : Nat} (hrpc : rpc ∈ (s.servers n).replications) :
    rpc < s.rpcs.length := by
  obtain ⟨r, hr, _⟩ := S.replications n rpc hrpc
  exact (List.getElem?_eq_some_iff.mp hr).1

theorem Sim.call_nodup (S : Sim m h s) (hnd : (s.servers n).replications.Nodup) :
    ((s.servers n).replications ++ [s.rpcs.length]).Nodup := by
  refine List.nodup_append.mpr ⟨hnd, List.nodup_singleton _, ?_⟩
  rintro rpc hrpc _ hnew rfl
  rw [List.mem_singleton.mp hnew] at hrpc
  exact Nat.lt_irrefl _ (S.call_lt hrpc)

theorem CallsMove.keep (hnd : (s.servers n).replications.Nodup)
    (ha : ∀ rpc, a ≠ .act n (.replicateReply rpc))
    (heq : (s'.servers n).replications = (s.servers n).replications) : CallsMove m s a s' n where
  nodup := by
    rw [heq]
    exact hnd
  calls := by
    intro rpc hrpc
    rw [heq] at hrpc
    exact Or.inl ⟨hrpc, ha rpc⟩

theorem CallsMove.stop (heq : (s'.servers n).replications = []) : CallsMove m s a s' n where
  nodup := by
    rw [heq]
    exact List.nodup_nil
  calls := by
    intro rpc hrpc
    rw [heq] at hrpc
    cases hrpc

theorem CallsMove.begin (S : Sim m h s) (hnd : (s.servers n).replications.Nodup)
    (ha : ∀ rpc, a ≠ .act n (.replicateReply rpc))
    (heq : (s'.servers n).replications = (s.servers n).replications ++ [s.rpcs.length])
    (hbegun : Begun m s s' n s.rpcs.length) : CallsMove m s a s' n where
  nodup := by
    rw [heq]
    exact S.call_nodup hnd
  calls := by
    intro rpc hrpc
    rw [heq] at hrpc
    rcases List.mem_append.mp hrpc with hold | hnew
    · exact Or.inl ⟨hold, ha rpc⟩
    · obtain rfl := List.mem_singleton.mp hnew
      exact Or.inr hbegun

theorem CallsMove.answer (hnd : (s.servers n).replications.Nodup) {rpc₀ : Nat}
    (heq : (s'.servers n).replications = (s.servers n).replications.erase rpc₀) :
    CallsMove m s (.act n (.replicateReply rpc₀)) s' n where
  nodup := by
    rw [heq]
    exact hnd.erase rpc₀
  calls := by
    intro rpc hrpc
    rw [heq] at hrpc
    obtain ⟨hne, hmem⟩ := hnd.mem_erase_iff.mp hrpc
    refine Or.inl ⟨hmem, ?_⟩
    intro hact
    cases hact
    exact hne rfl

/-- Only the node's own scopes touch its calls. -/
theorem CallsMove.act (hnd : (s.servers n).replications.Nodup) {k : NodeId} {b : ServerAction}
    {srv : Server} {send : Option (NodeId × Request)} {events : List Event}
    (own : n = k → CallsMove m s (.act k b) (s.update k srv send events) n) :
    CallsMove m s (.act k b) (s.update k srv send events) n := by
  by_cases hk : n = k
  · exact own hk
  · refine .keep hnd (fun rpc hact => ?_) (by simp [Cluster.update, hk])
    cases hact
    exact hk rfl

theorem move_calls (S : Sim m h s) (hnd : (s.servers n).replications.Nodup)
    (mv : Move m s a s') : CallsMove m s a s' n := by
  have same : ∀ {k : NodeId} {srv : Server}, srv.replications = (s.servers k).replications →
      (Function.update s.servers k srv n).replications = (s.servers n).replications :=
    fun hsrv => forall_update
      (P := fun n srv => srv.replications = (s.servers n).replications) hsrv (fun _ _ => rfl) n
  cases mv with
  | tick d => exact .keep hnd (fun _ h => by cases h) rfl
  | requestVote _ _ _ _ => exact .keep hnd (fun _ h => by cases h) (same rfl)
  | appendEntries _ _ _ _ => exact .keep hnd (fun _ h => by cases h) (same rfl)
  | crash _ _ =>
    refine .act hnd ?_
    rintro rfl
    exact .stop (by simp [Cluster.update])
  | restart _ _ _ =>
    refine .act hnd ?_
    rintro rfl
    exact .stop (by simp [Cluster.update])
  | startElection _ _ _ => exact .keep hnd (fun _ h => by cases h) (same rfl)
  | callVoter _ _ => exact .keep hnd (fun _ h => by cases h) (same rfl)
  | voteLost _ _ => exact .keep hnd (fun _ h => by cases h) (same rfl)
  | voteReply _ _ _ => exact .keep hnd (fun _ h => by cases h) (same rfl)
  | endElection _ _ => exact .keep hnd (fun _ h => by cases h) (same rfl)
  | replicateIdle _ => exact .keep hnd (fun _ h => by cases h) rfl
  | @replicate k peer req _ _ hpeer hreq =>
    refine .act hnd ?_
    rintro rfl
    refine .begin S hnd (fun _ h => by cases h) (by simp [Cluster.update]) ?_
    exact ⟨rfl, ⟨peer, req, hpeer, hreq, by simp [Cluster.update]⟩, by simp [Cluster.update], rfl⟩
  | replicateReply _ _ _ _ _ _ =>
    refine .act hnd ?_
    rintro rfl
    exact .answer hnd (by simp [Cluster.update])
  | write _ _ => exact .keep hnd (fun _ h => by cases h) (same rfl)
  | writeStep _ _ _ => exact .keep hnd (fun _ h => by cases h) (same rfl)
  | read _ _ => exact .keep hnd (fun _ h => by cases h) (same rfl)
  | readStep _ _ _ => exact .keep hnd (fun _ h => by cases h) (same rfl)
  | readLost _ _ _ => exact .keep hnd (fun _ h => by cases h) (same rfl)

theorem move_rpcs (mv : Move m s a s') : ∃ sent, s'.rpcs = s.rpcs ++ sent := by
  cases mv with
  | tick d => exact ⟨[], (List.append_nil _).symm⟩
  | replicateIdle _ => exact ⟨[], (List.append_nil _).symm⟩
  | _ => exact ⟨_, rfl⟩

/-- A reply that was not there before is the callee's answer in this step. -/
theorem move_replies (mv : Move m s a s') {rpc : Nat} {resp : AppendEntriesResponse}
    (hresp : s'.appendReplyTo rpc = some resp) :
    s.appendReplyTo rpc = some resp ∨
      ∃ r req, s.rpcs[rpc]? = some r ∧ r.req = .appendEntries req ∧
        resp = ((s.servers r.callee).raft.handleAppendEntries req).2 := by
  have answer : ∀ {k : NodeId} {raft : RaftNode} {i : Nat} {x : Response},
      (s.answer k raft i x).appendReplyTo rpc = some resp →
      s.appendReplyTo rpc = some resp ∨ (i = rpc ∧ x = .appendEntries resp) := by
    intro k raft i x hx
    have hx := replyTo_of_append hx
    unfold replyTo Cluster.answer at hx
    simp only [List.find?_append] at hx
    cases hf : s.replies.find? (fun p => p.1 == rpc) with
    | some p =>
      rw [hf] at hx
      left
      unfold appendReplyTo replyTo
      rw [hf]
      simp only [Option.some_or] at hx
      rw [hx]
    | none =>
      rw [hf] at hx
      right
      by_cases hi : i = rpc
      · simp [hi] at hx
        exact ⟨hi, hx⟩
      · simp [hi] at hx
  cases mv with
  | requestVote _ _ _ _ =>
    rcases answer hresp with h | ⟨_, h⟩
    · exact Or.inl h
    · cases h
  | @appendEntries i r req _ hr hreq _ =>
    rcases answer hresp with h | ⟨rfl, h⟩
    · exact Or.inl h
    · exact Or.inr ⟨r, req, hr, hreq, by cases h; rfl⟩
  | _ => exact Or.inl hresp

end Calls

/-! ## The invariant -/

/-- A call of `ReplicateToPeer` that node `n` waits for in its present term. -/
structure PendingCall (s : Cluster) (n : NodeId) (rpc : Nat) (peer : NodeId)
    (req : AppendEntriesRequest) : Prop where
  waiting : rpc ∈ (s.servers n).replications
  sent : ∃ r, s.rpcs[rpc]? = some r ∧ r.caller = n ∧ r.callee = peer ∧ r.req = .appendEntries req
  term : req.term = (s.servers n).raft.currentTerm

/-- The newest call to a peer starts right behind what the leader takes the peer to hold; if it is
refused, it starts behind what the peer has acknowledged. -/
structure Fresh (s : Cluster) (n : NodeId) (rpc : Nat) (peer : NodeId)
    (req : AppendEntriesRequest) : Prop where
  start : req.prevLogIndex + 1 = (s.servers n).raft.nextIndex.valueAt peer
  refused : ∀ resp, s.appendReplyTo rpc = some resp →
    (s.servers n).raft.Refuses req.term resp →
      (s.servers n).raft.matchIndex.valueAt peer < req.prevLogIndex

structure Progress (m : Membership) (s : Cluster) : Prop where
  nodup : ∀ n, (s.servers n).replications.Nodup
  behind : ∀ n, (s.servers n).raft.state = .kLeader → ∀ peer ∈ (m.configOf n).otherPeers,
    (s.servers n).raft.matchIndex.valueAt peer < (s.servers n).raft.nextIndex.valueAt peer
  fresh : ∀ n, (s.servers n).raft.state = .kLeader → ∀ rpc peer req, PendingCall s n rpc peer req →
    s.newest rpc = true → Fresh s n rpc peer req

section Invariant

variable {m : Membership} {h : Hist} {s s' : Cluster} {a : Action} {n : NodeId}

theorem PeerMap.mem_of_valueAt :
    ∀ {m : PeerMap} {id : NodeId}, m.valueAt id ≠ 0 → (id, m.valueAt id) ∈ m
  | [], _, h => absurd rfl h
  | p :: m, id, h => by
    by_cases hp : p.1 = id
    · subst hp
      simp [valueAt]
    · have hrest : valueAt (p :: m) id = valueAt m id := by simp [valueAt, hp]
      rw [hrest] at h ⊢
      exact List.mem_cons_of_mem _ (PeerMap.mem_of_valueAt h)

/-- What a leader takes a peer to hold is acknowledged. -/
theorem LeaderSim.acked_valueAt {r : RaftNode} (L : LeaderSim m h n r) (peer : NodeId) :
    r.matchIndex.valueAt peer ≤ h.ack (peer, r.currentTerm) := by
  by_cases h0 : r.matchIndex.valueAt peer = 0
  · omega
  · exact L.acked _ (PeerMap.mem_of_valueAt h0)

/-- **A peer does not refuse what starts right behind an entry it has acknowledged in the term.** -/
theorem ack_lt_of_refused (I : HInv m h) (S : Sim m h s) {peer : NodeId}
    {req : AppendEntriesRequest} (R : AppendReqSim h n peer req)
    (hterm : ((s.servers peer).raft.handleAppendEntries req).2.term ≤ req.term)
    (hfail : ((s.servers peer).raft.handleAppendEntries req).2.success = false) :
    h.ack (peer, req.term) < req.prevLogIndex := by
  have N := S.node peer
  have hle : (s.servers peer).raft.currentTerm ≤ req.term := by
    rcases (s.servers peer).raft.handleAppendEntries_cases req with ⟨_, he⟩ | ⟨hle, _⟩ | ⟨hle, _, _⟩
    · rw [he] at hterm
      exact hterm
    · exact hle
    · exact hle
  have hmis : ¬ (s.servers peer).raft.HasPrev req := by
    intro hprev
    have hacc := (RaftNode.handleAppendEntries_accepted hle
      ((RaftNode.prevMismatch_eq_false_iff N.contiguous).mpr hprev)).1
    rw [hacc] at hfail
    cases hfail
  by_contra hack
  refine hmis ?_
  by_cases h0 : req.prevLogIndex = 0
  · exact Or.inl h0
  · -- it has acknowledged the entry in this term, and so still has it
    have hreach := I.ack_reached peer req.term (by omega)
    rw [N.cur] at hreach
    have hcur : h.cur peer = req.term := by rw [N.cur]; omega
    have hpre := I.ack_prefix (n := peer) (k := req.prevLogIndex) (by rw [hcur]; omega)
    rw [hcur, N.log] at hpre
    obtain ⟨e, he, het⟩ := R.prev_term (by omega)
    refine Or.inr ⟨e, getElem?_of_isPrefix hpre ?_, het⟩
    rw [List.getElem?_take_of_lt (by omega)]
    exact he

theorem PendingCall.appendReqSim {rpc : Nat} {peer : NodeId} {req : AppendEntriesRequest}
    (P : PendingCall s n rpc peer req) (S : Sim m h s) : AppendReqSim h n peer req := by
  obtain ⟨r, hr, rfl, rfl, hreq⟩ := P.sent
  exact (S.rpcs r (List.mem_of_getElem? hr)).1.append req hreq

/-- A reply that has arrived in the present term answers a pending call. -/
theorem ReplyArrived.pending {rpc : Nat} {peer : NodeId} {req : AppendEntriesRequest}
    {resp : AppendEntriesResponse} (A : ReplyArrived s n rpc peer req resp) (S : Sim m h s)
    (hterm : (s.servers n).raft.currentTerm = req.term) : PendingCall s n rpc peer req := by
  obtain ⟨r, hr, hpeer, hreq⟩ := A.sent
  obtain ⟨r', hr', hcaller, _⟩ := S.replications n rpc A.waiting
  rw [hr] at hr'
  cases hr'
  exact ⟨A.waiting, ⟨r, hr, hcaller, hpeer, hreq⟩, hterm.symm⟩

/-- Two different pending calls that are both the newest go to different peers. -/
theorem PendingCall.peer_ne {i j : Nat} {p q : NodeId} {req req' : AppendEntriesRequest}
    (P : PendingCall s n i p req) (Q : PendingCall s n j q req') (hi : s.newest i = true)
    (hj : s.newest j = true) (hij : i ≠ j) : p ≠ q := by
  obtain ⟨r, hr, hrn, hrp, hreq⟩ := P.sent
  obtain ⟨r', hr', hrn', hrp', hreq'⟩ := Q.sent
  intro hpq
  refine hij (newest_unique hi hj hr hr' ?_)
  simp [sameLine, hrn, hrn', hrp, hrp', hreq, hreq', hpq, Request.appendTerm, P.term, Q.term]

theorem Fresh.keep {rpc : Nat} {peer : NodeId} {req : AppendEntriesRequest} (I : HInv m h)
    (S : Sim m h s) (mv : Move m s a s') (hl : (s.servers n).raft.state = .kLeader)
    (P : PendingCall s n rpc peer req) (F : Fresh s n rpc peer req)
    (hterm : (s'.servers n).raft.currentTerm = (s.servers n).raft.currentTerm)
    (hnext : (s'.servers n).raft.nextIndex.valueAt peer =
      (s.servers n).raft.nextIndex.valueAt peer)
    (hmatch : (s'.servers n).raft.matchIndex.valueAt peer =
      (s.servers n).raft.matchIndex.valueAt peer) : Fresh s' n rpc peer req := by
  refine ⟨by rw [hnext]; exact F.start, ?_⟩
  intro resp hresp href
  rw [hmatch]
  rcases move_replies mv hresp with hold | ⟨r, req', hr, hreq', rfl⟩
  · exact F.refused resp hold ⟨P.term.symm, by rw [← hterm]; exact href.term_le, href.failed⟩
  · obtain ⟨r', hr', _, hpeer, hreq⟩ := P.sent
    rw [hr] at hr'
    cases hr'
    rw [hreq'] at hreq
    cases hreq
    rw [hpeer] at href
    have hlt := ack_lt_of_refused I S (P.appendReqSim S)
      (by have := href.term_le; rw [hterm, ← P.term] at this; exact this) href.failed
    have hack := ((S.node n).leader hl).acked_valueAt peer
    rw [← P.term] at hack
    omega

/-! ## Steps -/

/-- What a step that leaves `n` as a leader does to its record of one peer. -/
inductive PeerMove (m : Membership) (s : Cluster) (a : Action) (n peer : NodeId) (r' : RaftNode) :
    Prop where
  | same (hl : (s.servers n).raft.state = .kLeader)
      (hterm : r'.currentTerm = (s.servers n).raft.currentTerm)
      (hnext : r'.nextIndex.valueAt peer = (s.servers n).raft.nextIndex.valueAt peer)
      (hmatch : r'.matchIndex.valueAt peer = (s.servers n).raft.matchIndex.valueAt peer)
  | elected {req : RequestVoteRequest} {votes : Nat}
      (he : (s.servers n).election = some ⟨req, votes, [], none⟩)
      (hst : (s.servers n).raft.state = .kCandidate)
      (hreq : (s.servers n).raft.currentTerm = req.term)
      (hmaj : (m.configOf n).majority ≤ votes)
      (hterm : r'.currentTerm = (s.servers n).raft.currentTerm)
      (hnext : 0 < r'.nextIndex.valueAt peer) (hmatch : r'.matchIndex.valueAt peer = 0)
  | entered {rpc : Nat} {req : AppendEntriesRequest} {resp : AppendEntriesResponse}
      {last : LogEntry} (ha : a = .act n (.replicateReply rpc))
      (hl : (s.servers n).raft.state = .kLeader) (harr : ReplyArrived s n rpc peer req resp)
      (hreq : (s.servers n).raft.currentTerm = req.term)
      (hterm : r'.currentTerm = (s.servers n).raft.currentTerm)
      (hlast : req.entries.getLast? = some last)
      (hnext : r'.nextIndex.valueAt peer = last.index + 1)
      (hmatch : r'.matchIndex.valueAt peer = last.index)
  | backedOff {rpc : Nat} {req : AppendEntriesRequest} {resp : AppendEntriesResponse}
      (ha : a = .act n (.replicateReply rpc)) (hl : (s.servers n).raft.state = .kLeader)
      (harr : ReplyArrived s n rpc peer req resp)
      (hrefuses : (s.servers n).raft.Refuses req.term resp)
      (hterm : r'.currentTerm = (s.servers n).raft.currentTerm)
      (hnext : r'.nextIndex.valueAt peer = (s.servers n).raft.nextIndex.valueAt peer - 1)
      (hmatch : r'.matchIndex.valueAt peer = (s.servers n).raft.matchIndex.valueAt peer)

theorem LeaderMove.peer {r' : RaftNode} (L : LeaderMove m s a n r') {peer : NodeId}
    (hpeer : peer ∈ (m.configOf n).otherPeers) : PeerMove m s a n peer r' := by
  cases L with
  | kept B => exact .same B.state B.term (by rw [B.nextIndex]) (by rw [B.matchIndex])
  | elected he hst hterm hmaj =>
    refine .elected he hst hterm hmaj rfl ?_ (PeerMap.valueAt_map hpeer)
    have hnext : ((s.servers n).raft.becomeLeader (m.configOf n)).nextIndex.valueAt peer =
        (s.servers n).raft.log.lastIndex + 1 := PeerMap.valueAt_map hpeer
    rw [hnext]
    exact Nat.succ_pos _
  | proposed _ hl _ => exact .same hl rfl rfl rfl
  | @entered rpc q req resp ha hl harr _ hreq =>
    obtain ⟨_, hterm, hmatch, hnext, _⟩ :=
      ((s.servers n).raft.recordAck req.entries q s.clock).advanceCommitIndex_fields
    have hterm' := hterm.trans ((s.servers n).raft.recordAck_fields req.entries q s.clock).2.1
    rcases RaftNode.recordAck_peer (s.servers n).raft req.entries q s.clock peer with
      ⟨h₁, h₂⟩ | ⟨rfl, last, hlast, h₁, h₂⟩
    · exact .same hl hterm' (by rw [hnext, h₁]) (by rw [hmatch, h₂])
    · exact .entered ha hl harr hreq hterm' hlast (by rw [hnext, h₁]) (by rw [hmatch, h₂])
  | @backedOff rpc q req resp ha hl harr hrefuses hnext =>
    by_cases hq : peer = q
    · subst hq
      exact .backedOff ha hl harr hrefuses rfl (PeerMap.valueAt_put_self _) rfl
    · exact .same hl rfl (PeerMap.valueAt_put_of_ne hq) rfl

theorem newest_of_inOrder {rpc : Nat} (hok : InOrder s a) (ha : a = .act n (.replicateReply rpc)) :
    s.newest rpc = true := by
  subst ha
  exact hok

theorem behind_step (S : Sim m h s) (P : Progress m s) (hok : InOrder s a)
    (mv : Move m s a s') (hl : (s'.servers n).raft.state = .kLeader) {peer : NodeId}
    (hpeer : peer ∈ (m.configOf n).otherPeers) :
    (s'.servers n).raft.matchIndex.valueAt peer < (s'.servers n).raft.nextIndex.valueAt peer := by
  cases (move_leader S mv hl).peer hpeer with
  | same hst _ hnext hmatch =>
    rw [hnext, hmatch]
    exact P.behind n hst peer hpeer
  | elected _ _ _ _ _ hnext hmatch => omega
  | entered _ _ _ _ _ _ hnext hmatch => omega
  | backedOff ha hst harr hrefuses _ hnext hmatch =>
    have F := P.fresh n hst _ _ _ (harr.pending S hrefuses.live) (newest_of_inOrder hok ha)
    have hlt := F.refused _ harr.reply hrefuses
    have hstart := F.start
    omega

/-- A call that was on its way before the step: it was the newest already, and the reply that is
entered, if any, is to a call to another peer. -/
theorem fresh_of_old (I : HInv m h) (S : Sim m h s) (P : Progress m s) (hok : InOrder s a)
    (mv : Move m s a s') (hl : (s'.servers n).raft.state = .kLeader) {rpc : Nat} {peer : NodeId}
    {req : AppendEntriesRequest} (Q' : PendingCall s' n rpc peer req)
    (hnew : s'.newest rpc = true) (hold : rpc ∈ (s.servers n).replications)
    (hne : a ≠ .act n (.replicateReply rpc)) : Fresh s' n rpc peer req := by
  obtain ⟨sent, hsent⟩ := move_rpcs mv
  have hlt := S.call_lt hold
  have hnew := newest_of_append hsent hlt hnew
  have hsent : ∃ r, s.rpcs[rpc]? = some r ∧ r.caller = n ∧ r.callee = peer ∧
      r.req = .appendEntries req := by
    obtain ⟨r, hr, hrest⟩ := Q'.sent
    rw [hsent, List.getElem?_append_left hlt] at hr
    exact ⟨r, hr, hrest⟩
  have hpeer : peer ∈ (m.configOf n).otherPeers := by
    obtain ⟨r, hr, _, hcallee⟩ := S.replications n rpc hold
    obtain ⟨r', hr', _, rfl, _⟩ := hsent
    rw [hr] at hr'
    cases hr'
    exact hcallee
  have pending : (s'.servers n).raft.currentTerm = (s.servers n).raft.currentTerm →
      PendingCall s n rpc peer req := fun hterm => ⟨hold, hsent, Q'.term.trans hterm⟩
  cases (move_leader S mv hl).peer hpeer with
  | same hst hterm hnext hmatch =>
    have Q := pending hterm
    exact (P.fresh n hst rpc peer req Q hnew).keep I S mv hst Q hterm hnext hmatch
  | elected he hst hreq hmaj hterm _ _ =>
    have R := (pending hterm).appendReqSim S
    have hfree := S.won_free I he hst hreq hmaj
    rw [← hterm, ← Q'.term, R.leads] at hfree
    cases hfree
  | entered ha hst harr hreq hterm _ _ _ =>
    refine absurd rfl
      ((pending hterm).peer_ne (harr.pending S hreq) hnew (newest_of_inOrder hok ha) ?_)
    rintro rfl
    exact hne ha
  | backedOff ha hst harr hrefuses hterm _ _ =>
    refine absurd rfl
      ((pending hterm).peer_ne (harr.pending S hrefuses.live) hnew (newest_of_inOrder hok ha) ?_)
    rintro rfl
    exact hne ha

/-- The call that has just been made: it starts at `next_index_`, and has no reply yet. -/
theorem fresh_of_begun (S : Sim m h s) (hl : (s'.servers n).raft.state = .kLeader) {rpc : Nat}
    {peer : NodeId} {req : AppendEntriesRequest} (Q' : PendingCall s' n rpc peer req)
    (B : Begun m s s' n rpc) : Fresh s' n rpc peer req := by
  obtain ⟨peer', req', hpeer, hreq, hrpc⟩ := B.call
  obtain ⟨r, hr, _, rfl, hrreq⟩ := Q'.sent
  rw [hrpc] at hr
  cases hr
  cases hrreq
  rw [B.raft] at hl
  refine ⟨?_, ?_⟩
  · have hpos := (((S.node n).leader hl).next peer' hpeer).1
    unfold RaftNode.replicateRequest at hreq
    rw [if_neg (by rw [hl]; simp)] at hreq
    cases hreq
    show (s.servers n).raft.nextIndex.valueAt peer' - 1 + 1 = _
    rw [B.raft]
    exact Nat.sub_add_cancel hpos
  · intro resp hresp _
    have hreply := replyTo_of_append hresp
    unfold replyTo at hreply
    rw [B.replies] at hreply
    obtain ⟨p, hp, _⟩ := Option.map_eq_some_iff.mp hreply
    obtain ⟨r', hr', _⟩ := S.replies p (List.mem_of_find?_eq_some hp)
    have hid : p.1 = rpc := by simpa using List.find?_some hp
    have hlt := (List.getElem?_eq_some_iff.mp hr').1
    rw [hid, B.id] at hlt
    exact absurd hlt (Nat.lt_irrefl _)

theorem fresh_step (I : HInv m h) (S : Sim m h s) (P : Progress m s) (hok : InOrder s a)
    (mv : Move m s a s') (hl : (s'.servers n).raft.state = .kLeader) {rpc : Nat} {peer : NodeId}
    {req : AppendEntriesRequest} (Q' : PendingCall s' n rpc peer req)
    (hnew : s'.newest rpc = true) :
    Fresh s' n rpc peer req := by
  rcases (move_calls S (P.nodup n) mv).calls rpc Q'.waiting with ⟨hold, hne⟩ | B
  · exact fresh_of_old I S P hok mv hl Q' hnew hold hne
  · exact fresh_of_begun S hl Q' B

/-- **One step**: `match_index_` does not decrease while the node leads. -/
theorem match_step (S : Sim m h s) (P : Progress m s) (hok : InOrder s a) (mv : Move m s a s')
    (hst : (s.servers n).raft.state = .kLeader) (hl : (s'.servers n).raft.state = .kLeader)
    {peer : NodeId} (hpeer : peer ∈ (m.configOf n).otherPeers) :
    (s.servers n).raft.matchIndex.valueAt peer ≤ (s'.servers n).raft.matchIndex.valueAt peer := by
  cases (move_leader S mv hl).peer hpeer with
  | same _ _ _ hmatch => exact Nat.le_of_eq hmatch.symm
  | elected _ hst' _ _ _ _ _ =>
    rw [hst] at hst'
    cases hst'
  | entered ha _ harr hreq _ hlast _ hmatch =>
    have Q := harr.pending S hreq
    have hstart := (P.fresh n hst _ _ _ Q (newest_of_inOrder hok ha)).start
    have hidx := (Q.appendReqSim S).last_index (S.books _) hlast
    have hpos := List.length_pos_of_ne_nil (List.ne_nil_of_mem (List.mem_of_getLast? hlast))
    have := P.behind n hst peer hpeer
    omega
  | backedOff _ _ _ _ _ _ hmatch => exact Nat.le_of_eq hmatch.symm

theorem progress_step (I : HInv m h) (S : Sim m h s) (P : Progress m s) (hok : InOrder s a)
    (mv : Move m s a s') : Progress m s' where
  nodup n := (move_calls S (P.nodup n) mv).nodup
  behind _ hl _ hpeer := behind_step S P hok mv hl hpeer
  fresh _ hl _ _ _ Q hnew := fresh_step I S P hok mv hl Q hnew

theorem run_progress {hash : Bytes → Nat} (hr : Run m hash InOrder s) : Progress m s := by
  induction hr with
  | init =>
    refine ⟨fun _ => List.nodup_nil, ?_, ?_⟩
    · intro n hl
      cases hl
    · intro n hl
      cases hl
  | step hr ha hs ih =>
    obtain ⟨h, I, S⟩ := run_simulated hr
    exact progress_step I S ih ha (step_move hs)

/-- A node is elected at most once in a term. -/
theorem not_elected_again {hash : Bytes → Nat} {ok : Cluster → Action → Prop} {t : Cluster}
    (hs : Run m hash ok s) (ht : Runs.Run (step m) s ok t)
    (hst : (s.servers n).raft.state = .kLeader) :
    ∃ L, Event.becameLeader n (s.servers n).raft.currentTerm L ∈ t.history := by
  induction ht with
  | init =>
    obtain ⟨h, _, S⟩ := run_simulated hs
    exact S.history.recorded n _ ((S.node n).leader hst).leads
  | step ht _ hstep ih =>
    obtain ⟨L, hL⟩ := ih
    obtain ⟨_, _, evs, _, _, _, hhist⟩ := move_effect (step_move hstep)
    exact ⟨L, by rw [hhist]; exact List.mem_append_left _ hL⟩

/-- **A leader's record of its peers does not go back**, in a run in which replies are entered for
the newest call only: as long as node `n` leads in one term, `match_index_` does not decrease and
`next_index_` stays above it. -/
theorem progress_never_regresses {hash : Bytes → Nat} {t : Cluster} (hs : Run m hash InOrder s)
    (ht : Runs.Run (step m) s InOrder t) (hst : (s.servers n).raft.state = .kLeader)
    (hl : (t.servers n).raft.state = .kLeader)
    (hterm : (t.servers n).raft.currentTerm = (s.servers n).raft.currentTerm) {peer : NodeId}
    (hpeer : peer ∈ (m.configOf n).otherPeers) :
    (s.servers n).raft.matchIndex.valueAt peer ≤ (t.servers n).raft.matchIndex.valueAt peer ∧
      (t.servers n).raft.matchIndex.valueAt peer < (t.servers n).raft.nextIndex.valueAt peer := by
  refine ⟨?_, (run_progress (hs.trans ht)).behind n hl peer hpeer⟩
  induction ht with
  | init => exact Nat.le_refl _
  | @step t t' a ht hok hstep ih =>
    have hr := hs.trans ht
    obtain ⟨h, I, S⟩ := run_simulated hr
    have mv := step_move hstep
    have P := run_progress hr
    -- the node leads before the step too, for it cannot have been elected again
    have before : (t.servers n).raft.state = .kLeader ∧
        (t'.servers n).raft.currentTerm = (t.servers n).raft.currentTerm := by
      cases (move_leader S mv hl).peer hpeer with
      | same hl' hterm' _ _ => exact ⟨hl', hterm'⟩
      | elected he hc hreq hmaj hterm' _ _ =>
        obtain ⟨L, hL⟩ := not_elected_again hs ht hst
        have hlead : h.leader (s.servers n).raft.currentTerm = some n :=
          (S.history.events _ hL).1
        have hfree := S.won_free I he hc hreq hmaj
        rw [← hterm', hterm, hlead] at hfree
        cases hfree
      | entered _ hl' _ _ hterm' _ _ _ => exact ⟨hl', hterm'⟩
      | backedOff _ hl' _ _ hterm' _ _ => exact ⟨hl', hterm'⟩
    exact Nat.le_trans (ih before.1 (before.2.symm.trans hterm))
      (match_step S P hok mv before.1 hl hpeer)

end Invariant

/-! ## Out of order -/

/-- Two entries, replicated one by one and each reply entered as it comes. -/
theorem progress_in_order :
    ∃ s t, Run Membership.trio (fun _ => 0) InOrder s ∧
      Runs.Run (step Membership.trio) s InOrder t ∧
      (s.servers 1).raft.matchIndex.valueAt 2 = 1 ∧ (t.servers 1).raft.matchIndex.valueAt 2 = 2 ∧
      ((s.servers 1).raft.matchIndex.valueAt 2 ≤ (t.servers 1).raft.matchIndex.valueAt 2 ∧
        (t.servers 1).raft.matchIndex.valueAt 2 < (t.servers 1).raft.nextIndex.valueAt 2) := by
  obtain ⟨s, hr, hs⟩ : ∃ s : Cluster, Run Membership.trio (fun _ => 0) InOrder s ∧
      (exec (step Membership.trio) InOrder s
        [.act 1 (.write .kSet [98] [2]), .act 1 (.writeStep 1 false), .act 1 (.writeStep 1 false),
         .act 1 (.replicate 2), .deliver 3, .act 1 (.replicateReply 3)]).any
        (fun t => decide (
          ((s.servers 1).raft.state = .kLeader ∧ (t.servers 1).raft.state = .kLeader ∧
            (t.servers 1).raft.currentTerm = (s.servers 1).raft.currentTerm) ∧
          (s.servers 1).raft.matchIndex.valueAt 2 = 1 ∧
          (t.servers 1).raft.matchIndex.valueAt 2 = 2)) = true :=
    exists_run
      (electFirst ++
        [.act 1 (.write .kSet [97] [1]), .act 1 (.writeStep 0 false), .act 1 (.writeStep 0 false),
         .act 1 (.replicate 2), .deliver 2, .act 1 (.replicateReply 2)])
      (by decide +kernel)
  obtain ⟨t, ht, hall⟩ := exists_of_any hs
  obtain ⟨⟨hst, hl, hterm⟩, h₁, h₂⟩ := of_decide_eq_true hall
  have hrun := Run.of_exec _ .init ht
  exact ⟨s, t, hr, hrun, h₁, h₂,
    progress_never_regresses hr hrun hst hl hterm
      (by decide : 2 ∈ (Membership.trio.configOf 1).otherPeers)⟩

/-- **Two calls for one peer whose replies are entered in the other order**: the older one, with one
entry, takes `match_index_` back from 2 to 1. -/
theorem stale_reply_regresses :
    ∃ s s', Run Membership.trio (fun _ => 0) anyStep s ∧
      step Membership.trio s (.act 1 (.replicateReply 2)) = some s' ∧
      (s.servers 1).raft.state = .kLeader ∧ (s'.servers 1).raft.state = .kLeader ∧
      (s'.servers 1).raft.currentTerm = (s.servers 1).raft.currentTerm ∧
      (s.servers 1).raft.matchIndex.valueAt 2 = 2 ∧
      (s'.servers 1).raft.matchIndex.valueAt 2 = 1 := by
  obtain ⟨s, hr, hs⟩ : ∃ s : Cluster, Run Membership.trio (fun _ => 0) anyStep s ∧
      (step Membership.trio s (.act 1 (.replicateReply 2))).any (fun s' => decide (
        (s.servers 1).raft.state = .kLeader ∧ (s'.servers 1).raft.state = .kLeader ∧
        (s'.servers 1).raft.currentTerm = (s.servers 1).raft.currentTerm ∧
        (s.servers 1).raft.matchIndex.valueAt 2 = 2 ∧
        (s'.servers 1).raft.matchIndex.valueAt 2 = 1)) = true :=
    exists_run
      (electFirst ++
        [.act 1 (.write .kSet [97] [1]), .act 1 (.writeStep 0 false), .act 1 (.writeStep 0 false),
         .act 1 (.replicate 2), .act 1 (.write .kSet [98] [2]), .act 1 (.writeStep 1 false),
         .act 1 (.writeStep 1 false), .act 1 (.replicate 2), .deliver 2, .deliver 3,
         .act 1 (.replicateReply 3)])
      (by decide +kernel)
  obtain ⟨s', hs', hall⟩ := exists_of_any hs
  exact ⟨s, s', hr, hs', of_decide_eq_true hall⟩

/-- A refusal that is entered after a newer call has succeeded: node 1 leads again in term 3 with
one entry that node 2 lacks.  Two calls are refused; the first refusal lets the next call start
at 1 and succeed, the second then takes `next_index_` down to `match_index_`. -/
theorem late_refusal_regresses :
    ∃ s, Run Membership.trio (fun _ => 0) anyStep s ∧ (s.servers 1).raft.state = .kLeader ∧
      (s.servers 1).raft.matchIndex.valueAt 2 = 1 ∧ (s.servers 1).raft.nextIndex.valueAt 2 = 1 := by
  obtain ⟨s, hr, hs⟩ : ∃ s : Cluster, Run Membership.trio (fun _ => 0) anyStep s ∧
      decide ((s.servers 1).raft.state = .kLeader ∧ (s.servers 1).raft.matchIndex.valueAt 2 = 1 ∧
        (s.servers 1).raft.nextIndex.valueAt 2 = 1) = true :=
    exists_run
      (electFirst ++
        [.act 1 (.write .kSet [97] [1]), .act 1 (.writeStep 0 false), .act 1 (.writeStep 0 false),
         -- node 3 asks for the vote of node 1, which steps down
         .act 3 .startElection, .act 3 .callVoter, .deliver 2,
         -- elected again, in term 3
         .act 1 .startElection, .act 1 .callVoter, .deliver 3, .act 1 .voteReply, .act 1 .callVoter,
         .act 1 .voteLost, .act 1 .endElection,
         .act 1 (.replicate 2), .act 1 (.replicate 2), .deliver 5, .deliver 6,
         .act 1 (.replicateReply 5), .act 1 (.replicate 2), .deliver 7, .act 1 (.replicateReply 7),
         .act 1 (.replicateReply 6)])
      (by decide +kernel)
  exact ⟨s, hr, of_decide_eq_true hs⟩

end NeuralKV
