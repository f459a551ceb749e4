import NeuralKV.Raft.Commit
import NeuralKV.Raft.Safety

/-!
# Terms, leader hints and the leader's log

What a step of the cluster does to a node's term and to `leader_id_`, and what follows for every
run, with crashes, restarts and lost messages:

* `TermMove`, `move_term` — a term is kept, taken over from a message, or raised by one in
  `StartElection`.
* `move_signed`, `move_replied` — the terms in new messages are those of their senders.
* `leader_append_only` — **a leader never changes what is in its log**, and while it leads its log
  holds everything that any node ever got from its term.
* `leader_hint_names_leader` — **`leader_id` names the leader of the node's own term**: the hint in
  a WRONG_LEADER answer is a member that has been elected, and nodes of the same term agree on it.
-/

set_option autoImplicit false

namespace NeuralKV

open Consensus Cluster
open Runs (anyStep exists_run)

/-! ## Terms in messages -/

def Request.term : Request → Nat
  | .requestVote req => req.term
  | .appendEntries req => req.term

def Response.term : Response → Nat
  | .requestVote resp => resp.term
  | .appendEntries resp => resp.term

/-- Some message that has been sent carries the term. -/
def Cluster.Carries (s : Cluster) (T : Nat) : Prop :=
  (∃ r ∈ s.rpcs, r.req.term = T) ∨ ∃ p ∈ s.replies, p.2.term = T

theorem Cluster.carries_of_rpc {s : Cluster} {rpc : Nat} {r : Rpc} (hr : s.rpcs[rpc]? = some r) :
    s.Carries r.req.term :=
  Or.inl ⟨r, List.mem_of_getElem? hr, rfl⟩

theorem Cluster.mem_replies {s : Cluster} {rpc : Nat} {resp : Response}
    (hresp : s.replyTo rpc = some resp) : (rpc, resp) ∈ s.replies := by
  unfold replyTo at hresp
  cases hf : s.replies.find? (fun p => p.1 == rpc) with
  | none =>
    rw [hf] at hresp
    cases hresp
  | some p =>
    rw [hf] at hresp
    have hid : p.1 = rpc := by simpa using List.find?_some hf
    have hp := List.mem_of_find?_eq_some hf
    rwa [show p = (rpc, resp) from Prod.ext hid (Option.some.inj hresp)] at hp

theorem Cluster.carries_of_reply {s : Cluster} {rpc : Nat} {resp : Response}
    (hresp : s.replyTo rpc = some resp) : s.Carries resp.term :=
  Or.inr ⟨_, mem_replies hresp, rfl⟩

/-! ## What a step does to the term -/

/-- The ways a step can leave node `n` with its term and its hint. -/
inductive TermMove (m : Membership) (s : Cluster) (a : Action) (n : NodeId) : RaftNode → Prop where
  | kept {r' : RaftNode} (hterm : r'.currentTerm = (s.servers n).raft.currentTerm)
      (hhint : r'.leaderId = (s.servers n).raft.leaderId ∨ r'.leaderId = 0)
      (hlead : (s.servers n).raft.state = .kLeader → a ≠ .act n .restart → r'.state = .kLeader) :
      TermMove m s a n r'
  | observed {r' : RaftNode} (hcarried : s.Carries r'.currentTerm)
      (hlt : (s.servers n).raft.currentTerm < r'.currentTerm) (hhint : r'.leaderId = 0) :
      TermMove m s a n r'
  | heard {r' : RaftNode} {rpc : Nat} {r : Rpc} {req : AppendEntriesRequest}
      (hr : s.rpcs[rpc]? = some r) (hreq : r.req = .appendEntries req)
      (hle : (s.servers n).raft.currentTerm ≤ req.term) (hterm : r'.currentTerm = req.term)
      (hhint : r'.leaderId = req.leaderId)
      (hlead : (s.servers n).raft.state = .kLeader →
        req.term ≤ (s.servers n).raft.currentTerm → r'.state = .kLeader) : TermMove m s a n r'
  | stood {r' : RaftNode} (ha : a = .act n .startElection)
      (hterm : r'.currentTerm = (s.servers n).raft.currentTerm + 1) (hhint : r'.leaderId = 0) :
      TermMove m s a n r'
  | elected {r' : RaftNode} (hn : n ∈ m.ids)
      (hterm : r'.currentTerm = (s.servers n).raft.currentTerm) (hstate : r'.state = .kLeader)
      (hhint : r'.leaderId = n) : TermMove m s a n r'

section Inversion

variable {m : Membership} {h : Hist} {s s' : Cluster} {a : Action} {n : NodeId}

theorem TermMove.same {r' : RaftNode} (hterm : r'.currentTerm = (s.servers n).raft.currentTerm)
    (hhint : r'.leaderId = (s.servers n).raft.leaderId)
    (hstate : r'.state = (s.servers n).raft.state) : TermMove m s a n r' :=
  .kept hterm (Or.inl hhint) (fun hl _ => hstate.trans hl)

theorem TermMove.refl : TermMove m s a n (s.servers n).raft := .same rfl rfl rfl

theorem TermMove.becomeFollower {T : Nat} (hcarried : s.Carries T)
    (hlt : (s.servers n).raft.currentTerm < T) :
    TermMove m s a n ((s.servers n).raft.becomeFollower T) :=
  .observed hcarried hlt rfl

theorem term_requestVote {rpc : Nat} {r : Rpc} {req : RequestVoteRequest}
    (hr : s.rpcs[rpc]? = some r) (hreq : r.req = .requestVote req) :
    TermMove m s a n ((s.servers n).raft.handleRequestVote req).1 := by
  have hcarried : s.Carries req.term := by
    have hc := carries_of_rpc hr
    rwa [hreq] at hc
  have hobserved : TermMove m s a n ((s.servers n).raft.observeTerm req.term) := by
    rcases (s.servers n).raft.observeTerm_cases req.term with ⟨_, h⟩ | ⟨hlt, h⟩ <;> rw [h]
    · exact .refl
    · exact .becomeFollower hcarried hlt
  rcases (s.servers n).raft.handleRequestVote_cases req with h | ⟨_, _, _, h⟩ <;> rw [h]
  · exact hobserved
  · -- a granted vote changes neither the term nor the hint
    rcases (s.servers n).raft.observeTerm_cases req.term with ⟨_, h⟩ | ⟨hlt, h⟩ <;> rw [h]
    · exact .same rfl rfl rfl
    · exact .observed hcarried hlt rfl

theorem followCommit_hint (r : RaftNode) (leaderCommit : Nat) :
    (r.followCommit leaderCommit).leaderId = r.leaderId ∧
      (r.followCommit leaderCommit).state = r.state := by
  rcases r.followCommit_cases leaderCommit with ⟨_, h⟩ | ⟨_, h⟩ <;> rw [h]
  · exact ⟨rfl, rfl⟩
  · exact ⟨rfl, rfl⟩

theorem acceptLeader_hint (r : RaftNode) (req : AppendEntriesRequest) :
    (r.acceptLeader req).leaderId = req.leaderId ∧
      (r.state = .kLeader → req.term ≤ r.currentTerm → (r.acceptLeader req).state = .kLeader) := by
  rcases r.acceptLeader_cases req with ⟨_, _, h⟩ | ⟨_, hst, h⟩ | ⟨hlt, h⟩ <;> rw [h]
  · exact ⟨rfl, fun hl _ => hl⟩
  · exact ⟨rfl, fun hl _ => by rw [hst] at hl; cases hl⟩
  · exact ⟨rfl, fun _ hle => by omega⟩

theorem term_appendEntries {rpc : Nat} {r : Rpc} {req : AppendEntriesRequest}
    (hr : s.rpcs[rpc]? = some r) (hreq : r.req = .appendEntries req) :
    TermMove m s a n ((s.servers n).raft.handleAppendEntries req).1 := by
  obtain ⟨hhint, hlead⟩ := acceptLeader_hint (s.servers n).raft req
  rcases (s.servers n).raft.handleAppendEntries_cases req with
    ⟨_, h⟩ | ⟨hle, h⟩ | ⟨hle, _, h⟩ <;> rw [h]
  · exact .refl
  · exact .heard hr hreq hle (RaftNode.acceptLeader_term hle) hhint hlead
  · obtain ⟨hid, hstate⟩ := followCommit_hint
      { (s.servers n).raft.acceptLeader req with
        log := RaftNode.appendLoop (s.servers n).raft.log req.prevLogIndex req.entries }
      req.leaderCommit
    refine .heard hr hreq hle ?_ (hid.trans hhint) (fun hl hterm => hstate.trans (hlead hl hterm))
    rw [(RaftNode.followCommit_fields _ _).2.1]
    exact RaftNode.acceptLeader_term hle

theorem term_voteReply {rpc : Nat} {resp : RequestVoteResponse} (term votes : Nat)
    (hresp : s.voteReplyTo rpc = some resp) :
    TermMove m s a n ((s.servers n).raft.voteReply term votes resp).1 := by
  have hcarried : s.Carries resp.term := carries_of_reply (replyTo_of_vote hresp)
  rcases (s.servers n).raft.voteReply_cases term votes resp with
    h | ⟨hlt, h⟩ | ⟨_, h⟩ | h <;> rw [h]
  · exact .refl
  · exact .becomeFollower hcarried hlt
  · exact .refl
  · exact .refl

theorem advanceCommitIndex_hint (r : RaftNode) :
    r.advanceCommitIndex.leaderId = r.leaderId := by
  rcases r.advanceCommitIndex_cases with h | ⟨_, _, _, _, _, _, h⟩ <;> rw [h]
  rfl

theorem recordAck_hint (r : RaftNode) (entries : List LogEntry) (peer : NodeId) (now : Nat) :
    (r.recordAck entries peer now).leaderId = r.leaderId := by
  unfold RaftNode.recordAck
  split <;> rfl

theorem term_replicateReply {rpc : Nat} {resp : AppendEntriesResponse} (term : Nat)
    (entries : List LogEntry) (peer : NodeId) (now : Nat)
    (hresp : s.appendReplyTo rpc = some resp) :
    TermMove m s a n ((s.servers n).raft.replicateReply term entries peer resp now) := by
  have hcarried : s.Carries resp.term := carries_of_reply (replyTo_of_append hresp)
  rcases (s.servers n).raft.replicateReply_cases term entries peer resp now with
    h | ⟨hlt, h⟩ | ⟨_, _, _, h⟩ | ⟨_, _, _, h⟩ <;> rw [h]
  · exact .refl
  · exact .becomeFollower hcarried hlt
  · obtain ⟨_, hterm, _, hstate, _⟩ :=
      (s.servers n).raft.recordAck_fields entries peer now
    obtain ⟨_, hterm', _, _, hstate'⟩ :=
      ((s.servers n).raft.recordAck entries peer now).advanceCommitIndex_fields
    exact .same (hterm'.trans hterm)
      ((advanceCommitIndex_hint _).trans (recordAck_hint _ _ _ _)) (hstate'.trans hstate)
  · exact .same rfl rfl rfl

theorem term_confirmReply {rpc : Nat} {resp : AppendEntriesResponse} (term acks : Nat)
    (peer : NodeId) (now : Nat) (hresp : s.appendReplyTo rpc = some resp) :
    TermMove m s a n ((s.servers n).raft.confirmReply term acks peer resp now).1 := by
  have hcarried : s.Carries resp.term := carries_of_reply (replyTo_of_append hresp)
  rcases (s.servers n).raft.confirmReply_cases term acks peer resp now with
    ⟨hlt, h⟩ | h | ⟨_, _, _, h⟩ | ⟨_, _, h⟩ <;> rw [h]
  · exact .becomeFollower hcarried hlt
  · exact .refl
  · exact .same rfl rfl rfl
  · exact .refl

theorem term_read {config : ClusterConfig} {rd : Read} {now pos nextRpc : Nat} {out : ReadOutcome}
    (hmove : ReadMove config (s.servers n).raft rd now pos nextRpc (s.readReply rd) out) :
    TermMove m s a n out.raft := by
  have waiting : ∀ {term start acks rpc : Nat} {peer : NodeId} {todo : List NodeId}
      {resp : AppendEntriesResponse}, rd.stage = .round term start acks todo (some (peer, rpc)) →
      s.readReply rd = some resp → s.appendReplyTo rpc = some resp := by
    intro term start acks rpc peer todo resp hstage hreply
    unfold readReply at hreply
    rwa [hstage] at hreply
  cases hmove with
  | lost hstage hreply _ => exact term_confirmReply _ _ _ _ (waiting hstage hreply)
  | counted hstage hreply _ => exact term_confirmReply _ _ _ _ (waiting hstage hreply)
  | _ => exact .refl

theorem term_endElection (hn : n ∈ m.ids) (term votes : Nat) :
    TermMove m s a n ((s.servers n).raft.finishElection (m.configOf n) term votes).1 := by
  unfold RaftNode.finishElection
  split
  · exact .elected hn rfl rfl rfl
  · exact .refl

theorem term_restart (S : Sim m h s) {r' : RaftNode}
    (hr : (s.servers n).raft.restart = some r') : TermMove m s (.act n .restart) n r' := by
  have R := RaftNode.restart_spec (S.node n).contiguous hr
  have hsame : (⟨r'.currentTerm, r'.votedFor⟩ : PersistentState) =
      ⟨(s.servers n).raft.currentTerm, (s.servers n).raft.votedFor⟩ :=
    R.persisted.trans (S.node n).persisted
  have hhint : r'.leaderId = 0 := by
    unfold RaftNode.restart at hr
    split at hr
    · cases hr
    · cases hr
      rfl
  exact .kept (PersistentState.mk.inj hsame).1 (Or.inr hhint) (fun _ hne => absurd rfl hne)

theorem term_write {w : Write} {raft : RaftNode} {next : Option Write} {events : List Event}
    (hmove : WriteMove n (s.servers n).raft w raft next events) : TermMove m s a n raft := by
  cases hmove with
  | passed _ _ => exact .refl
  | proposed _ _ _ => exact .same rfl rfl rfl
  | returned _ _ _ _ => exact .refl

theorem term_update {k : NodeId} {srv : Server} (hk : TermMove m s a k srv.raft) :
    TermMove m s a n (Function.update s.servers k srv n).raft :=
  forall_update (P := fun n srv => TermMove m s a n srv.raft) hk (fun _ _ => .refl) n

/-- **The inversion of a step, as far as terms and hints go.** -/
theorem move_term (S : Sim m h s) (mv : Move m s a s') (n : NodeId) :
    TermMove m s a n (s'.servers n).raft := by
  cases mv with
  | tick d => exact .refl
  | requestVote _ hr hreq _ => exact term_update (term_requestVote hr hreq)
  | appendEntries _ hr hreq _ => exact term_update (term_appendEntries hr hreq)
  | crash _ _ => exact term_update .refl
  | restart _ _ hr => exact term_update (term_restart S hr)
  | startElection _ _ _ => exact term_update (.stood rfl rfl rfl)
  | callVoter _ _ => exact term_update .refl
  | voteLost _ _ => exact term_update .refl
  | voteReply _ _ hresp => exact term_update (term_voteReply _ _ hresp)
  | endElection hn _ => exact term_update (term_endElection hn _ _)
  | replicateIdle _ => exact .refl
  | replicate _ _ _ _ => exact term_update .refl
  | replicateReply _ _ _ _ hresp hraft =>
    subst hraft
    exact term_update (term_replicateReply _ _ _ _ hresp)
  | write _ _ => exact term_update .refl
  | writeStep _ _ hmove => exact term_update (term_write hmove)
  | read _ _ => exact term_update .refl
  | readStep _ _ hmove => exact term_update (term_read hmove)
  | readLost _ _ _ => exact term_update .refl

theorem TermMove.le {r' : RaftNode} (hmove : TermMove m s a n r') :
    (s.servers n).raft.currentTerm ≤ r'.currentTerm := by
  cases hmove <;> omega

/-! ## What new messages say -/

/-- What a request tells of its sender. -/
def Signed (s : Cluster) (r : Rpc) : Prop :=
  (∀ req, r.req = .requestVote req → ∃ e, (s.servers r.caller).election = some e ∧ e.req = req) ∧
    ∀ req, r.req = .appendEntries req →
      req.leaderId = r.caller ∧ req.term = (s.servers r.caller).raft.currentTerm

/-- **A new request carries its sender's name and term.** -/
theorem move_signed (mv : Move m s a s') : ∀ r ∈ s'.rpcs, r ∈ s.rpcs ∨ Signed s r := by
  have old : ∀ r ∈ s.rpcs ++ [], r ∈ s.rpcs ∨ Signed s r := by
    intro r hr
    rw [List.append_nil] at hr
    exact Or.inl hr
  have new : ∀ {r₀ : Rpc}, Signed s r₀ → ∀ r ∈ s.rpcs ++ [r₀], r ∈ s.rpcs ∨ Signed s r := by
    intro r₀ hsigned r hr
    rcases List.mem_append.mp hr with h | h
    · exact Or.inl h
    · obtain rfl := List.mem_singleton.mp h
      exact Or.inr hsigned
  cases mv with
  | tick d => exact fun r hr => Or.inl hr
  | replicateIdle _ => exact fun r hr => Or.inl hr
  | callVoter _ he =>
    refine new ⟨fun req hreq => ?_, fun req hreq => by cases hreq⟩
    cases hreq
    exact ⟨_, he, rfl⟩
  | replicate _ _ _ hreq =>
    refine new ⟨fun req' h => (by cases h), fun req' h => ?_⟩
    cases h
    unfold RaftNode.replicateRequest at hreq
    split at hreq <;> cases hreq
    exact ⟨rfl, rfl⟩
  | readStep _ _ hmove =>
    cases hmove with
    | sent hstage hreq =>
      refine new ⟨fun req' h => (by cases h), fun req' h => ?_⟩
      cases h
      unfold RaftNode.confirmRequest at hreq
      split at hreq <;> cases hreq
      rename_i hlive
      exact ⟨rfl, (RaftNode.leader_of_live hlive).2.symm⟩
    | _ => exact old
  | _ => exact old

theorem handleRequestVote_term (r : RaftNode) (req : RequestVoteRequest) :
    (r.handleRequestVote req).2.term = (r.handleRequestVote req).1.currentTerm := by
  rcases r.handleRequestVote_cases req with h | ⟨_, _, _, h⟩ <;> rw [h]
  rfl

theorem handleAppendEntries_term (r : RaftNode) (req : AppendEntriesRequest) :
    (r.handleAppendEntries req).2.term = (r.handleAppendEntries req).1.currentTerm := by
  rcases r.handleAppendEntries_cases req with ⟨_, h⟩ | ⟨_, h⟩ | ⟨_, _, h⟩ <;> rw [h]
  exact (RaftNode.followCommit_fields
    { r.acceptLeader req with log := RaftNode.appendLoop r.log req.prevLogIndex req.entries }
    req.leaderCommit).2.1.symm

/-- **A new reply carries the term of the node that gave it.** -/
theorem move_replied (mv : Move m s a s') : ∀ p ∈ s'.replies, p ∈ s.replies ∨
    ∃ n, p.2.term = (s'.servers n).raft.currentTerm := by
  have new : ∀ {k : NodeId} {raft : RaftNode} {rpc : Nat} {resp : Response},
      resp.term = raft.currentTerm → ∀ p ∈ (s.answer k raft rpc resp).replies,
        p ∈ s.replies ∨
          ∃ n, p.2.term = ((s.answer k raft rpc resp).servers n).raft.currentTerm := by
    intro k raft rpc resp hterm p hp
    rcases List.mem_append.mp hp with h | h
    · exact Or.inl h
    · obtain rfl := List.mem_singleton.mp h
      refine Or.inr ⟨k, ?_⟩
      simp [Cluster.answer, Cluster.update, Cluster.withRaft, hterm]
  cases mv with
  | requestVote _ _ _ _ => exact new (handleRequestVote_term _ _)
  | appendEntries _ _ _ _ => exact new (handleAppendEntries_term _ _)
  | _ => exact fun p hp => Or.inl hp

end Inversion

/-! ## The leader's log -/

section Results

variable {m : Membership} {hash : Bytes → Nat} {h : Hist} {s s' : Cluster}

/-- A run that goes on extends the history that its beginning refines. -/
theorem run_extends (I : HInv m h) (S : Sim m h s) {ok : Cluster → Action → Prop}
    (hr : Runs.Run (step m) s ok s') : ∃ h', HSteps m h h' ∧ Sim m h' s' := by
  induction hr with
  | init => exact ⟨h, .refl, S⟩
  | step _ _ hs ih =>
    obtain ⟨h₁, st, S₁⟩ := ih
    obtain ⟨h₂, st', S₂⟩ := sim_move (inv_steps I st) S₁ (step_move hs)
    exact ⟨h₂, st.trans st', S₂⟩

/-- **Leader append-only**: between two states in which `n` leads the same term its log has only
grown, and it contains whatever a node ever held of that term, with all that came before. -/
theorem leader_append_only (hr : Run m hash anyStep s) (hr' : Runs.Run (step m) s anyStep s')
    {n : NodeId} (hl' : (s'.servers n).raft.state = .kLeader) :
    ((s.servers n).raft.state = .kLeader →
        (s.servers n).raft.currentTerm = (s'.servers n).raft.currentTerm →
          (s.servers n).raft.log.entries <+: (s'.servers n).raft.log.entries) ∧
      ∀ (k : NodeId) (i : Nat) (e : LogEntry), (s.servers k).raft.log.entries[i]? = some e →
        e.term = (s'.servers n).raft.currentTerm →
          (s.servers k).raft.log.entries.take (i + 1) <+: (s'.servers n).raft.log.entries := by
  obtain ⟨h, I, S⟩ := run_simulated hr
  obtain ⟨h', st, S'⟩ := run_extends I S hr'
  have hbook := (S'.node n).leader_log (inv_steps I st) hl'
  have hgrown := (extends_steps I st).book (s'.servers n).raft.currentTerm
  rw [← hbook] at hgrown
  constructor
  · intro hl hterm
    rw [(S.node n).leader_log I hl, hterm]
    exact hgrown
  · intro k i e he hterm
    rw [← (S.node k).log] at he ⊢
    have hrooted := I.rooted_log k i e he
    rw [entryTerm, hterm] at hrooted
    exact hrooted.trans hgrown

/-- Node 1 appends one entry, then a second one. -/
theorem leader_append_only_twoSets :
    ∃ s s', Run Membership.trio (fun _ => 0) anyStep s ∧
      Runs.Run (step Membership.trio) s anyStep s' ∧
      (s.servers 2).raft.log.entries = [firstEntry] ∧
      (s.servers 1).raft.log.entries <+: (s'.servers 1).raft.log.entries := by
  obtain ⟨s, hr, hs⟩ : ∃ s, Run Membership.trio (fun _ => 0) anyStep s ∧
      decide ((s.servers 2).raft.log.entries = [firstEntry] ∧
        (s.servers 1).raft.state = .kLeader ∧ (s.servers 1).raft.currentTerm = 1 ∧
        (Runs.exec (step Membership.trio) anyStep s (startSet 1 [98] [50])).any (fun s' =>
          decide ((s'.servers 1).raft.state = .kLeader ∧ (s'.servers 1).raft.currentTerm = 1)) =
            true) = true :=
    exists_run (electFirst ++ startSet 1 [97] [49] ++
      [.act 1 (.replicate 2), .deliver 2, .act 1 (.replicateReply 2), .act 1 (.writeStep 0 false)])
      (by decide +kernel)
  obtain ⟨hlog, hl, hterm, hany⟩ := of_decide_eq_true hs
  obtain ⟨s', hexec, hs'⟩ := Runs.exists_of_any hany
  obtain ⟨hl', hterm'⟩ := of_decide_eq_true hs'
  have hr' := Runs.Run.of_exec _ .init hexec
  exact ⟨s, s', hr, hr', hlog, (leader_append_only hr hr' hl').1 hl (hterm.trans hterm'.symm)⟩

/-! ## Leader hints -/

/-- The node that an event names to a client. -/
def Event.hint : Event → NodeId
  | .answered _ _ resp => resp.leaderHint
  | _ => 0

theorem Write.afterPropose_hint (n : NodeId) (w : Write) (e : Option LogEntry) (status : Status) :
    ∀ ev ∈ (w.afterPropose n e status).2, ev.hint = 0 := by
  unfold Write.afterPropose
  split
  · simp [Event.hint]
  · split
    · simp
    · simp [Event.hint]

theorem Write.step_hint {n : NodeId} {raft raft' : RaftNode} {w : Write} {timedOut : Bool}
    {next : Option Write} {events : List Event}
    (h : w.step n raft timedOut = some (raft', next, events)) :
    ∀ ev ∈ events, ev.hint = 0 ∨ ev.hint = raft.leaderId := by
  unfold Write.step at h
  split at h
  · split at h <;> cases h <;> simp
  · split at h
    · cases h
      exact fun ev hev => Or.inl (w.afterPropose_hint n none _ ev hev)
    · cases h
      simp [Event.hint]
  · split at h
    · cases h
    · cases h
      refine List.forall_mem_cons.mpr ⟨Or.inl rfl, fun ev hev => ?_⟩
      exact Or.inl (w.afterPropose_hint n _ _ ev hev)
  · cases h
    simp [Event.hint]

theorem ReadMove.hint {config : ClusterConfig} {raft : RaftNode} {rd : Read} {now pos nextRpc : Nat}
    {reply : Option AppendEntriesResponse} {out : ReadOutcome}
    (hmove : ReadMove config raft rd now pos nextRpc reply out) :
    ∀ ev ∈ out.events, ev.hint = 0 ∨ ev.hint = raft.leaderId := by
  cases hmove <;> simp [Event.hint]

/-- **A hint given to a client is some node's `leader_id_`.** -/
theorem step_hints {a : Action} (hs : s.step m a = some s') :
    ∃ evs, s'.history = s.history ++ evs ∧
      ∀ ev ∈ evs, ev.hint = 0 ∨ ∃ n, ev.hint = (s.servers n).raft.leaderId := by
  have silent : ∀ ev ∈ ([] : List Event),
      ev.hint = 0 ∨ ∃ n, ev.hint = (s.servers n).raft.leaderId := fun _ hev => by cases hev
  cases step_move hs with
  | tick d => exact ⟨[], (List.append_nil _).symm, silent⟩
  | replicateIdle _ => exact ⟨[], (List.append_nil _).symm, silent⟩
  | endElection _ _ =>
    refine ⟨_, rfl, ?_⟩
    split
    · simp [Event.hint]
    · exact silent
  | replicateReply _ _ _ _ _ _ =>
    refine ⟨_, rfl, ?_⟩
    split
    · exact silent
    · simp [Event.hint]
  | @writeStep n thread timedOut w raft next events hn hw _ =>
    -- the move has forgotten the answers, the step function has not
    simp only [Cluster.step, if_pos hn, Cluster.actStep, hw] at hs
    split at hs
    · cases hs
    · rename_i raft' next' events' hstep
      have hevents : events' = events :=
        List.append_cancel_left (congrArg Cluster.history (Option.some.inj hs))
      subst hevents
      exact ⟨_, rfl, fun ev hev => (Write.step_hint hstep ev hev).imp_right fun h => ⟨n, h⟩⟩
  | readStep _ _ hmove =>
    exact ⟨_, rfl, fun ev hev => (hmove.hint ev hev).imp_right fun h => ⟨_, h⟩⟩
  | _ => exact ⟨[], rfl, silent⟩

/-- Who is named as the leader, in requests, in nodes and to clients. -/
structure Hints (m : Membership) (h : Hist) (s : Cluster) : Prop where
  named : ∀ r ∈ s.rpcs, ∀ req, r.req = .appendEntries req → req.leaderId = r.caller
  node : ∀ n, (s.servers n).raft.leaderId ≠ 0 → (s.servers n).raft.leaderId ∈ m.ids ∧
    h.leader (s.servers n).raft.currentTerm = some (s.servers n).raft.leaderId
  told : ∀ i ev, s.history[i]? = some ev → ev.hint ≠ 0 →
    ∃ T L, Event.becameLeader ev.hint T L ∈ s.history.take i

/-- The hint of a node after a step. -/
theorem Hints.node_move {h' : Hist} (H : Hints m h s) (S : Sim m h s) (x : Extends h h')
    (S' : Sim m h' s') {a : Action} {n : NodeId} (hmove : TermMove m s a n (s'.servers n).raft)
    (hne : (s'.servers n).raft.leaderId ≠ 0) : (s'.servers n).raft.leaderId ∈ m.ids ∧
      h'.leader (s'.servers n).raft.currentTerm = some (s'.servers n).raft.leaderId := by
  cases hmove with
  | kept hterm hhint _ =>
    rcases hhint with hhint | hhint
    · rw [hhint] at hne ⊢
      rw [hterm]
      exact ⟨(H.node n hne).1, x.leader _ _ (H.node n hne).2⟩
    · exact absurd hhint hne
  | observed _ _ hhint => exact absurd hhint hne
  | @heard rpc r req hr hreq _ hterm hhint _ =>
    have hmem := List.mem_of_getElem? hr
    have R := (S.rpcs r hmem).1
    rw [hterm, hhint, H.named r hmem req hreq]
    exact ⟨R.caller, x.leader _ _ (R.append req hreq).leads⟩
  | stood _ _ hhint => exact absurd hhint hne
  | elected hn _ hstate hhint =>
    rw [hhint]
    exact ⟨hn, ((S'.node n).leader hstate).leads⟩

theorem Hints.told_step (H : Hints m h s) (S : Sim m h s) {a : Action}
    (hs : s.step m a = some s') : ∀ i ev, s'.history[i]? = some ev → ev.hint ≠ 0 →
      ∃ T L, Event.becameLeader ev.hint T L ∈ s'.history.take i := by
  obtain ⟨evs, hhist, hevs⟩ := step_hints hs
  rw [hhist]
  intro i ev hi hne
  by_cases hlt : i < s.history.length
  · rw [List.getElem?_append_left hlt] at hi
    rw [take_append_events (Nat.le_of_lt hlt)]
    exact H.told i ev hi hne
  · rw [List.getElem?_append_right (by omega)] at hi
    obtain ⟨n, hn⟩ := (hevs ev (List.mem_of_getElem? hi)).resolve_left hne
    rw [hn] at hne ⊢
    obtain ⟨L, hL⟩ := S.history.recorded _ _ (H.node n hne).2
    refine ⟨(s.servers n).raft.currentTerm, L, ?_⟩
    rw [List.take_append, List.take_of_length_le (by omega)]
    exact List.mem_append_left _ hL

theorem hints_run (hr : Run m hash anyStep s) : ∃ h, HInv m h ∧ Sim m h s ∧ Hints m h s := by
  induction hr with
  | init =>
    refine ⟨History.init, inv_init _ _, sim_init m hash, ?_⟩
    refine ⟨fun r hr => (by cases hr), fun n hne => absurd rfl hne, fun i ev hi => ?_⟩
    simp [Cluster.init] at hi
  | step _ _ hs ih =>
    obtain ⟨h, I, S, H⟩ := ih
    have mv := step_move hs
    obtain ⟨h', st, S'⟩ := sim_move I S mv
    refine ⟨h', inv_steps I st, S', ?_, ?_, H.told_step S hs⟩
    · intro r hr req hreq
      rcases move_signed mv r hr with hold | hnew
      · exact H.named r hold req hreq
      · exact (hnew.2 req hreq).1
    · intro n hne
      exact H.node_move S (extends_steps I st) S' (move_term S mv n) hne

/-- **A leader hint is true of the node's own term**: it names a member that has been elected in
that term, so nodes of one term name the same leader; and a client is never sent to a node that
had not been elected by then. -/
theorem leader_hint_names_leader (hr : Run m hash anyStep s) :
    (∀ n, (s.servers n).raft.leaderId ≠ 0 → (s.servers n).raft.leaderId ∈ m.ids ∧
      ∃ L, Event.becameLeader (s.servers n).raft.leaderId (s.servers n).raft.currentTerm L ∈
        s.history) ∧
    (∀ n k, (s.servers n).raft.currentTerm = (s.servers k).raft.currentTerm →
      (s.servers n).raft.leaderId ≠ 0 → (s.servers k).raft.leaderId ≠ 0 →
        (s.servers n).raft.leaderId = (s.servers k).raft.leaderId) ∧
    ∀ i n e resp, s.history[i]? = some (.answered n e resp) → resp.leaderHint ≠ 0 →
      ∃ T L, Event.becameLeader resp.leaderHint T L ∈ s.history.take i := by
  obtain ⟨h, _, S, H⟩ := hints_run hr
  refine ⟨fun n hne => ⟨(H.node n hne).1, S.history.recorded _ _ (H.node n hne).2⟩, ?_, ?_⟩
  · intro n k hterm hn hk
    have hleader := (H.node n hn).2
    rw [hterm, (H.node k hk).2] at hleader
    exact (Option.some.inj hleader).symm
  · intro i n e resp hi hne
    exact H.told i _ hi hne

/-- Node 2 hears of the election of node 1 and sends a client there. -/
theorem leader_hint_names_leader_redirect :
    ∃ s, Run Membership.trio (fun _ => 0) anyStep s ∧
      s.history[1]? = some (.answered 2 none { status := .kWrongLeader, leaderHint := 1 }) ∧
      ∃ T L, Event.becameLeader 1 T L ∈ s.history.take 1 := by
  obtain ⟨s, hr, hs⟩ : ∃ s, Run Membership.trio (fun _ => 0) anyStep s ∧
      decide (s.history[1]? =
        some (Event.answered 2 none { status := .kWrongLeader, leaderHint := 1 })) = true :=
    exists_run (electFirst ++ [.act 1 (.replicate 2), .deliver 2, .act 2 (.read [97]),
      .act 2 (.readStep 0), .act 2 (.readStep 0)]) (by decide +kernel)
  have hi := of_decide_eq_true hs
  exact ⟨s, hr, hi, (leader_hint_names_leader hr).2.2 1 2 none _ hi (by decide)⟩

end Results

end NeuralKV
