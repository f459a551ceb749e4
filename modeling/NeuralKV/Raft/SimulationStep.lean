import NeuralKV.Raft.SimulationNode

/-!
# The cluster simulates abstract log replication: every run

`sim_move` takes each step of the cluster to moves of the history, one lemma for each kind of
lock scope; `run_refines` is the run form: in every run, with crashes and restarts, delayed,
reordered and lost messages, the state is related to a history that the abstract protocol can
produce, which therefore satisfies the invariant of `NeuralKV.Lib.ConsensusInv`
(`run_simulated`).
-/

set_option autoImplicit false

namespace NeuralKV

open Consensus Quorum Cluster
open Runs (putThread mem_putThread)

variable {m : Membership} {h h' : Hist} {s : Cluster} {n : NodeId}

/-! ## Keeping threads -/

theorem Sim.election_keep (S : Sim m h s) (x : Extends h h') {sent : List Rpc} :
    ∀ e, (s.servers n).election = some e → ElectionSim m h' (s.rpcs ++ sent) n e :=
  fun e he => (S.election n e he).frame x

theorem Sim.reads_keep (S : Sim m h s) (x : Extends h h') {sent : List Rpc} {evs : List Event} :
    ∀ rd ∈ (s.servers n).reads, ReadSim m h' (s.rpcs ++ sent) (s.history ++ evs) n rd :=
  fun rd hrd => (S.reads n rd hrd).frame S.history x

theorem Sim.writes_keep (S : Sim m h s) (x : Extends h h') :
    ∀ w ∈ (s.servers n).writes, ∀ e, w.stage = .waiting e → ProposedBy h' n e :=
  fun w hw e he => (S.writes n w hw e he).frame x

theorem Sim.replications_keep (S : Sim m h s) {sent : List Rpc} :
    ∀ rpc ∈ (s.servers n).replications, ∃ r, (s.rpcs ++ sent)[rpc]? = some r ∧ r.caller = n ∧
      r.callee ∈ (m.configOf n).otherPeers := by
  intro rpc hrpc
  obtain ⟨r, hr, h₁⟩ := S.replications n rpc hrpc
  exact ⟨r, getElem?_append_rpcs hr, h₁⟩

/-- Steps that neither elect a leader nor append to a book. -/
theorem Sim.alone {srv : Server} {send : Option (NodeId × Request)} {events : List Event}
    (I : HInv m h) (S : Sim m h s) (A : Alone m n h h') (node : NodeSim m h' n srv.raft)
    (election : ∀ e, srv.election = some e →
      ElectionSim m h' (s.update n srv send events).rpcs n e)
    (reads : ∀ rd ∈ srv.reads,
      ReadSim m h' (s.update n srv send events).rpcs (s.history ++ events) n rd)
    (writes : ∀ w ∈ srv.writes, ∀ e, w.stage = .waiting e → ProposedBy h' n e)
    (replications : ∀ rpc ∈ srv.replications, ∃ r,
      (s.update n srv send events).rpcs[rpc]? = some r ∧ r.caller = n ∧
        r.callee ∈ (m.configOf n).otherPeers)
    (sent : ∀ p, send = some p → RpcSim m h' ⟨n, p.1, p.2, s.history.length⟩)
    (hevents : ∀ ev ∈ events, EventSim m h' (s.history ++ events) ev ∧ ev.ledTerm = none) :
    Sim m h' (s.update n srv send events) := by
  have x := extends_steps I A.steps
  refine S.update x A.same ?_ node election reads writes replications sent
    (S.history.frame x A.leader hevents)
  rw [A.book]
  exact S.books

/-- Only the node of process `n` changes. -/
theorem Sim.setRaft (I : HInv m h) (S : Sim m h s) (A : Alone m n h h') {raft : RaftNode}
    (node : NodeSim m h' n raft) : Sim m h' (s.update n (s.withRaft n raft)) := by
  have x := extends_steps I A.steps
  exact S.alone I A node (S.election_keep x) (S.reads_keep x) (S.writes_keep x) S.replications_keep
    (fun _ hp => by cases hp) (fun _ hev => by cases hev)

/-! ## Handlers -/

theorem Sim.answer {r : Rpc} {rpc : Nat} {raft : RaftNode} {resp : Response}
    (S : Sim m h' (s.update n (s.withRaft n raft))) (hr : s.rpcs[rpc]? = some r)
    (R : ReplySim h' s.history r resp) : Sim m h' (s.answer n raft rpc resp) := by
  have hnil : s.history ++ [] = s.history := List.append_nil _
  refine ⟨S.node, S.election, S.reads, S.writes, S.replications, S.rpcs, ?_, S.history, S.books⟩
  intro p hp
  rcases List.mem_append.mp hp with h₁ | h₁
  · exact S.replies p h₁
  · obtain rfl := List.mem_singleton.mp h₁
    refine ⟨r, getElem?_append_rpcs hr, ?_⟩
    show ReplySim h' (s.history ++ []) r resp
    rw [hnil]
    exact R

theorem sim_requestVote (I : HInv m h) (S : Sim m h s) {rpc : Nat} {r : Rpc}
    {req : RequestVoteRequest} (hr : s.rpcs[rpc]? = some r) (hreq : r.req = .requestVote req) :
    ∃ h', HSteps m h h' ∧ Sim m h'
      (s.answer r.callee ((s.servers r.callee).raft.handleRequestVote req).1 rpc
        (.requestVote ((s.servers r.callee).raft.handleRequestVote req).2)) := by
  have R := (S.rpcs r (List.mem_of_getElem? hr)).1
  obtain ⟨h', A, N, hgrant⟩ := (S.node r.callee).handleRequestVote I
    (m.ids_ne_zero R.caller) (R.vote req hreq)
  refine ⟨h', A.steps, (S.setRaft I A N).answer hr ⟨?_, ?_⟩⟩
  · intro req' a hreq' ha hg
    rw [hreq] at hreq'
    cases hreq'
    cases ha
    exact hgrant hg
  · intro req' a _ ha
    cases ha

theorem sim_appendEntries (I : HInv m h) (S : Sim m h s) {rpc : Nat} {r : Rpc}
    {req : AppendEntriesRequest} (hr : s.rpcs[rpc]? = some r) (hreq : r.req = .appendEntries req) :
    ∃ h', HSteps m h h' ∧ Sim m h'
      (s.answer r.callee ((s.servers r.callee).raft.handleAppendEntries req).1 rpc
        (.appendEntries ((s.servers r.callee).raft.handleAppendEntries req).2)) := by
  have R := (S.rpcs r (List.mem_of_getElem? hr)).1
  obtain ⟨h', A, N, hsucc⟩ := (S.node r.callee).handleAppendEntries I S.books (R.append req hreq)
  have I' := inv_steps I A.steps
  refine ⟨h', A.steps, (S.setRaft I A N).answer hr ⟨?_, ?_⟩⟩
  · intro req' a _ ha
    cases ha
  · intro req' a hreq' ha hs
    rw [hreq] at hreq'
    cases hreq'
    cases ha
    obtain ⟨h₁, hcur⟩ := hsucc hs
    refine ⟨h₁, ?_⟩
    -- an elector of a later term has reached that term, and the callee has not
    intro U hU hled hel
    obtain ⟨c, L, hmem⟩ := hled
    have hl : h'.leader U = some c := by
      rw [A.leader]
      exact (S.history.events _ (List.mem_of_mem_take hmem)).1
    have := I'.elector_reached hl hel
    omega

/-! ## Elections -/

theorem sim_startElection (I : HInv m h) (S : Sim m h s) (hn : n ∈ m.ids) :
    ∃ h', HSteps m h h' ∧ Sim m h'
      (s.update n
        { s.servers n with
          raft := ((s.servers n).raft.startElection (m.configOf n)).1
          election := some
            { req := ((s.servers n).raft.startElection (m.configOf n)).2
              votes := 1
              todo := (m.configOf n).otherPeers } }) := by
  have N := S.node n
  have A : Alone m n h (h.stand n ((s.servers n).raft.currentTerm + 1)) :=
    Alone.stand (by rw [N.cur]; exact Nat.lt_succ_self _)
  have x := extends_steps I A.steps
  refine ⟨_, A.steps, S.alone I A (N.startElection I (m.ids_ne_zero hn)) ?_ (S.reads_keep x)
    (S.writes_keep x) S.replications_keep (fun _ hp => by cases hp) (fun _ hev => by cases hev)⟩
  intro e he
  cases he
  refine ⟨N.startElection_req, m.otherPeers_nodup n,
    fun p hp => Membership.mem_otherPeers.mp hp, [n], Counted.self hn ?_, fun _ hp => by cases hp⟩
  exact ⟨h.log n, by simp [History.stand, RaftNode.startElection, RaftNode.persistState]⟩

theorem sim_callVoter (I : HInv m h) (S : Sim m h s) (hn : n ∈ m.ids) {peer : NodeId}
    {req : RequestVoteRequest} {votes : Nat} {todo : List NodeId}
    (he : (s.servers n).election = some ⟨req, votes, peer :: todo, none⟩) :
    Sim m h (s.update n
      { s.servers n with election := some ⟨req, votes, todo, some s.rpcs.length⟩ }
      (some (peer, .requestVote req))) := by
  have E := S.election n _ he
  have x := Extends.refl h
  obtain ⟨hpeer, hnd⟩ := List.nodup_cons.mp E.todo_nodup
  refine S.alone I (Alone.refl m n h) (S.node n) ?_ (S.reads_keep x) (S.writes_keep x) S.replications_keep ?_
    (fun _ hev => by cases hev)
  · intro e he'
    cases he'
    obtain ⟨vs, C, _⟩ := E.counted
    refine ⟨E.req, hnd, fun p hp => E.todo_members p (List.mem_cons_of_mem _ hp), vs, ?_, ?_⟩
    · exact { C with fresh := fun v hv hmem => C.fresh v hv (List.mem_cons_of_mem _ hmem) }
    · intro rpc hrpc
      cases hrpc
      refine ⟨⟨n, peer, .requestVote req, s.history.length⟩, ?_, rfl, rfl, ?_, hpeer⟩
      · exact List.getElem?_concat_length
      · exact fun hmem => C.fresh peer hmem List.mem_cons_self
  · intro p hp
    cases hp
    refine ⟨hn, (E.todo_members peer List.mem_cons_self).1, ?_, ?_⟩
    · intro req' hreq'
      cases hreq'
      exact E.req
    · intro req' hreq'
      cases hreq'

/-- An election thread goes on with the votes it has. -/
theorem ElectionSim.drop {rpcs : List Rpc} {req : RequestVoteRequest} {votes : Nat}
    {todo : List NodeId} {waiting : Option Nat} (E : ElectionSim m h rpcs n ⟨req, votes, todo, waiting⟩) :
    ElectionSim m h rpcs n ⟨req, votes, todo, none⟩ := by
  obtain ⟨vs, C, _⟩ := E.counted
  exact ⟨E.req, E.todo_nodup, E.todo_members, vs, C, fun _ hp => by cases hp⟩

theorem sim_voteLost (I : HInv m h) (S : Sim m h s) {req : RequestVoteRequest} {votes rpc : Nat}
    {todo : List NodeId} (he : (s.servers n).election = some ⟨req, votes, todo, some rpc⟩) :
    Sim m h (s.update n { s.servers n with election := some ⟨req, votes, todo, none⟩ }) := by
  have x := Extends.refl h
  refine S.alone I (Alone.refl m n h) (S.node n) ?_ (S.reads_keep x) (S.writes_keep x) S.replications_keep
    (fun _ hp => by cases hp) (fun _ hev => by cases hev)
  intro e he'
  cases he'
  exact ((S.election n _ he).frame x).drop

/-- What a reply that was found says about its request. -/
theorem Sim.reply (S : Sim m h s) {rpc : Nat} {resp : Response} (hresp : s.replyTo rpc = some resp)
    {r : Rpc} (hr : s.rpcs[rpc]? = some r) : ReplySim h s.history r resp := by
  unfold replyTo at hresp
  cases hf : s.replies.find? (fun p => p.1 == rpc) with
  | none => rw [hf] at hresp; cases hresp
  | some p =>
    rw [hf] at hresp
    obtain rfl := Option.some.inj hresp
    obtain ⟨r', hr', R⟩ := S.replies p (List.mem_of_find?_eq_some hf)
    have hid : p.1 = rpc := by simpa using List.find?_some hf
    rw [hid, hr] at hr'
    cases hr'
    exact R

theorem replyTo_of_vote {rpc : Nat} {resp : RequestVoteResponse}
    (h : s.voteReplyTo rpc = some resp) : s.replyTo rpc = some (.requestVote resp) := by
  unfold voteReplyTo at h
  split at h
  · cases h; assumption
  · cases h

theorem replyTo_of_append {rpc : Nat} {resp : AppendEntriesResponse}
    (h : s.appendReplyTo rpc = some resp) : s.replyTo rpc = some (.appendEntries resp) := by
  unfold appendReplyTo at h
  split at h
  · cases h; assumption
  · cases h

/-- A granted vote is counted once. -/
theorem ElectionSim.count {rpcs : List Rpc} {req : RequestVoteRequest} {votes rpc : Nat}
    {todo : List NodeId} {r : Rpc}
    (E : ElectionSim m h rpcs n ⟨req, votes, todo, some rpc⟩) (hr : rpcs[rpc]? = some r)
    (hmem : r.callee ∈ m.ids) (hv : ∃ F, h.vote (req.term, r.callee) = some (n, F)) :
    ElectionSim m h rpcs n ⟨req, votes + 1, todo, none⟩ := by
  obtain ⟨vs, C, hp⟩ := E.counted
  obtain ⟨r', hr', _, _, hnew, htodo⟩ := hp rpc rfl
  rw [hr] at hr'
  cases hr'
  refine ⟨E.req, E.todo_nodup, E.todo_members, r.callee :: vs, ?_, fun _ hp => by cases hp⟩
  refine ⟨List.nodup_cons.mpr ⟨hnew, C.nodup⟩, ?_, ?_, ?_, ?_⟩
  · exact List.cons_subset.mpr ⟨hmem, C.members⟩
  · rw [List.length_cons, C.length]
  · exact List.forall_mem_cons.mpr ⟨htodo, C.fresh⟩
  · exact List.forall_mem_cons.mpr ⟨hv, C.holds⟩

theorem sim_voteReply (I : HInv m h) (S : Sim m h s) {req : RequestVoteRequest} {votes rpc : Nat}
    {todo : List NodeId} {resp : RequestVoteResponse}
    (he : (s.servers n).election = some ⟨req, votes, todo, some rpc⟩)
    (hresp : s.voteReplyTo rpc = some resp) :
    ∃ h', HSteps m h h' ∧ Sim m h'
      (s.update n
        { s.servers n with
          raft := ((s.servers n).raft.voteReply req.term votes resp).1
          election := ((s.servers n).raft.voteReply req.term votes resp).2.map
            fun votes => ⟨req, votes, todo, none⟩ }) := by
  have E := S.election n _ he
  obtain ⟨h', A, N⟩ := (S.node n).voteReply I req.term votes resp
  have x := extends_steps I A.steps
  refine ⟨h', A.steps, S.alone I A N ?_ (S.reads_keep x) (S.writes_keep x) S.replications_keep
    (fun _ hp => by cases hp) (fun _ hev => by cases hev)⟩
  intro e he'
  have E' : ElectionSim m h' (s.rpcs ++ []) n ⟨req, votes, todo, some rpc⟩ := E.frame x
  rcases (s.servers n).raft.voteReply_cases req.term votes resp with
    hr | ⟨_, hr⟩ | ⟨hgrant, hr⟩ | hr <;> simp only [hr] at he' <;> cases he'
  · -- the vote was granted
    obtain ⟨_, _, hp⟩ := E.counted
    obtain ⟨r, hrpc, hcaller, hreq, _, _⟩ := hp rpc rfl
    obtain ⟨F, hF⟩ := (S.reply (replyTo_of_vote hresp) hrpc).vote req resp hreq rfl hgrant
    refine E'.count (getElem?_append_rpcs hrpc) (S.rpcs r (List.mem_of_getElem? hrpc)).1.callee
      ⟨F, ?_⟩
    rw [← hcaller]
    exact x.vote _ _ _ hF
  · exact E'.drop

/-- The votes an election has counted are a quorum of votes for its candidate. -/
theorem Sim.won_quorum (S : Sim m h s) {req : RequestVoteRequest} {votes : Nat}
    (he : (s.servers n).election = some ⟨req, votes, [], none⟩)
    (hterm : (s.servers n).raft.currentTerm = req.term)
    (hmaj : (m.configOf n).majority ≤ votes) :
    h.votersFor (s.servers n).raft.currentTerm n ∈ m.quorums.quorum := by
  obtain ⟨vs, C, _⟩ := (S.election n _ he).counted
  rw [hterm]
  exact votersFor_quorum C (fun v hv => hv) hmaj

/-- Nobody leads the term in which an election is about to be won. -/
theorem Sim.won_free (I : HInv m h) (S : Sim m h s) {req : RequestVoteRequest} {votes : Nat}
    (he : (s.servers n).election = some ⟨req, votes, [], none⟩)
    (hst : (s.servers n).raft.state = .kCandidate)
    (hterm : (s.servers n).raft.currentTerm = req.term)
    (hmaj : (m.configOf n).majority ≤ votes) :
    h.leader (s.servers n).raft.currentTerm = none := by
  cases hl : h.leader (s.servers n).raft.currentTerm with
  | none => rfl
  | some c =>
    have := I.leader_unique hl (S.won_quorum he hterm hmaj)
    subst this
    exact absurd hl ((S.node c).candidate hst).2

/-- **The event of an election records it**: it is the first one of its term. -/
theorem HistSim.elected {hist : List Event} {L : List LogEntry} (H : HistSim m h hist)
    (x : Extends h (h.elect n)) (hfree : h.leader (h.cur n) = none)
    (hstood : h.stood (h.cur n, n) = some L) :
    HistSim m (h.elect n) (hist ++ [.becameLeader n (h.cur n) L]) := by
  refine ⟨?_, ?_, ?_, ?_⟩
  · intro ev hev
    rcases List.mem_append.mp hev with h₁ | h₁
    · exact (H.events ev h₁).frame x
    · obtain rfl := List.mem_singleton.mp h₁
      exact ⟨by simp [History.elect], hstood⟩
  · intro k T hl
    by_cases hT : T = h.cur n
    · subst hT
      obtain rfl : n = k := by simpa [History.elect] using hl
      exact ⟨L, List.mem_append_right _ (List.mem_singleton_self _)⟩
    · rw [History.elect_leader hT] at hl
      obtain ⟨L', hL⟩ := H.recorded k T hl
      exact ⟨L', List.mem_append_left _ hL⟩
  · rw [List.filterMap_append, List.nodup_append']
    refine ⟨H.once, List.nodup_singleton _, ?_⟩
    -- an earlier event of this term would mean that the term has a leader
    intro T h₁ h₂
    obtain rfl := List.mem_singleton.mp h₂
    obtain ⟨ev, hev, hled⟩ := List.mem_filterMap.mp h₁
    cases ev with
    | becameLeader k U L' =>
      obtain rfl : U = h.cur n := Option.some.inj hled
      have hl := (H.events _ hev).1
      rw [hl] at hfree
      cases hfree
    | _ => cases hled
  · intro k c T N L' hmem
    rcases mem_take_append hmem with h₁ | ⟨h₁, _⟩
    · exact (H.led_first k c T N L' h₁).append
    · cases List.mem_singleton.mp h₁

/-- A won election elects. -/
theorem sim_won (I : HInv m h) (S : Sim m h s) {req : RequestVoteRequest} {votes : Nat}
    (he : (s.servers n).election = some ⟨req, votes, [], none⟩)
    (hst : (s.servers n).raft.state = .kCandidate)
    (hterm : (s.servers n).raft.currentTerm = req.term)
    (hmaj : (m.configOf n).majority ≤ votes) :
    ∃ h', HSteps m h h' ∧ Sim m h'
      (s.update n
        { s.servers n with raft := (s.servers n).raft.becomeLeader (m.configOf n), election := none }
        none [.becameLeader n req.term (s.servers n).raft.log.entries]) := by
  have N := S.node n
  have hstood : h.stood (h.cur n, n) = some (h.log n) := by
    rw [N.cur, N.log]; exact (N.candidate hst).1
  have hq : h.votersFor (h.cur n) n ∈ m.quorums.quorum := by
    rw [N.cur]; exact S.won_quorum he hterm hmaj
  have hfree : h.leader (h.cur n) = none := by
    rw [N.cur]; exact S.won_free I he hst hterm hmaj
  have hsteps : HSteps m h (h.elect n) := .single (.elect n hstood hfree hq)
  have x := extends_steps I hsteps
  refine ⟨h.elect n, hsteps, S.update x (fun k hk => sameAt_elect hk hfree) ?_ N.becomeLeader
    (fun _ he => by cases he) (S.reads_keep x) (S.writes_keep x) S.replications_keep
    (fun _ hp => by cases hp) ?_⟩
  · intro T
    by_cases hT : T = h.cur n
    · subst hT
      rw [History.elect_book_self, N.log]
      exact N.contiguous.numbered
    · rw [History.elect_book hT]
      exact S.books T
  · rw [← hterm, ← N.cur, ← N.log]
    exact S.history.elected x hfree hstood

theorem sim_endElection (I : HInv m h) (S : Sim m h s) {req : RequestVoteRequest} {votes : Nat}
    (he : (s.servers n).election = some ⟨req, votes, [], none⟩) :
    ∃ h', HSteps m h h' ∧ Sim m h'
      (s.update n
        { s.servers n with
          raft := ((s.servers n).raft.finishElection (m.configOf n) req.term votes).1
          election := none }
        none
        (if ((s.servers n).raft.finishElection (m.configOf n) req.term votes).2 then
          [.becameLeader n req.term (s.servers n).raft.log.entries] else [])) := by
  unfold RaftNode.finishElection
  split
  · rename_i hwon
    exact sim_won I S he hwon.1 hwon.2.1 hwon.2.2
  · have x := Extends.refl h
    refine ⟨h, .refl, S.alone I (Alone.refl m n h) (S.node n) (fun _ he => by cases he)
      (S.reads_keep x) (S.writes_keep x) S.replications_keep (fun _ hp => by cases hp) (fun _ hev => by cases hev)⟩

/-! ## Replication -/

theorem sim_replicate (I : HInv m h) (S : Sim m h s) (hn : n ∈ m.ids) {peer : NodeId}
    {req : AppendEntriesRequest} (hpeer : peer ∈ (m.configOf n).otherPeers)
    (hreq : (s.servers n).raft.replicateRequest (m.configOf n) peer = some req) :
    Sim m h (s.update n
      { s.servers n with replications := (s.servers n).replications ++ [s.rpcs.length] }
      (some (peer, .appendEntries req))) := by
  have x := Extends.refl h
  refine S.alone I (Alone.refl m n h) (S.node n) (S.election_keep x) (S.reads_keep x)
    (S.writes_keep x) ?_ ?_
    (fun _ hev => by cases hev)
  · intro rpc hrpc
    rcases List.mem_append.mp hrpc with h₁ | h₁
    · exact S.replications_keep rpc h₁
    · obtain rfl := List.mem_singleton.mp h₁
      exact ⟨⟨n, peer, .appendEntries req, s.history.length⟩, List.getElem?_concat_length, rfl, hpeer⟩
  · intro p hp
    cases hp
    refine ⟨hn, (Membership.mem_otherPeers.mp hpeer).1, ?_, ?_⟩
    · intro req' hreq'
      cases hreq'
    · intro req' hreq'
      cases hreq'
      exact (S.node n).replicateRequest I hpeer hreq

/-- What a `ReplicateToPeer` call knows when its reply has arrived. -/
theorem Sim.replicated (S : Sim m h s) {rpc : Nat} {r : Rpc} {req : AppendEntriesRequest}
    {resp : AppendEntriesResponse} (hrpc : rpc ∈ (s.servers n).replications)
    (hr : s.rpcs[rpc]? = some r) (hreq : r.req = .appendEntries req)
    (hresp : s.appendReplyTo rpc = some resp) :
    r.callee ∈ (m.configOf n).otherPeers ∧ AppendReqSim h n r.callee req ∧
      (resp.success = true → req.prevLogIndex + req.entries.length ≤ h.ack (r.callee, req.term)) := by
  obtain ⟨r', hr', hcaller, hcallee⟩ := S.replications n rpc hrpc
  rw [hr] at hr'
  cases hr'
  have R := (S.rpcs r (List.mem_of_getElem? hr)).1.append req hreq
  rw [hcaller] at R
  refine ⟨hcallee, R, fun hs => ?_⟩
  exact ((S.reply (replyTo_of_append hresp) hr).append req resp hreq rfl hs).1

theorem sim_replicateReply (I : HInv m h) (S : Sim m h s) (hn : n ∈ m.ids) {rpc : Nat} {r : Rpc}
    {req : AppendEntriesRequest} {resp : AppendEntriesResponse} {raft : RaftNode}
    (hrpc : rpc ∈ (s.servers n).replications) (hr : s.rpcs[rpc]? = some r)
    (hreq : r.req = .appendEntries req) (hresp : s.appendReplyTo rpc = some resp)
    (hraft : raft = (s.servers n).raft.replicateReply req.term req.entries r.callee resp s.clock) :
    ∃ h', HSteps m h h' ∧ Sim m h'
      (s.update n
        { s.servers n with
          raft := raft, replications := (s.servers n).replications.erase rpc }
        none
        (if raft.commitIndex = (s.servers n).raft.commitIndex then []
          else [.advanced n (s.servers n).raft.currentTerm raft.commitIndex
            (s.servers n).raft.log.entries])) := by
  obtain ⟨hpeer, R, hack⟩ := S.replicated hrpc hr hreq hresp
  have N := S.node n
  obtain ⟨h', A, N'⟩ := N.replicateReply I S.books hpeer R hack s.clock
  have x := extends_steps I A.steps
  refine ⟨h', A.steps, S.alone I A (by rw [hraft]; exact N') (S.election_keep x) (S.reads_keep x)
    (S.writes_keep x) (fun rpc' hrpc' => S.replications_keep rpc' (List.mem_of_mem_erase hrpc'))
    (fun _ hp => by cases hp) ?_⟩
  intro ev hev
  split at hev
  · cases hev
  · rename_i hadv
    obtain rfl := List.mem_singleton.mp hev
    subst hraft
    obtain ⟨hl, hC, hle⟩ := N.replicateReply_committed I hn S.books hpeer R hack hadv
    refine ⟨⟨x.leader _ _ (N.leader hl).leads, hC.mono x, ?_, hle⟩, rfl⟩
    rw [N.leader_log I hl]
    exact x.book _

/-! ## Client requests -/

/-- Answers say nothing about elections and commitments. -/
theorem answered_quiet {hist : List Event} {events : List Event}
    (hevents : ∀ ev ∈ events, ∃ e resp, ev = .answered n e resp) :
    ∀ ev ∈ events, EventSim m h hist ev ∧ ev.ledTerm = none := by
  intro ev hev
  obtain ⟨e, resp, rfl⟩ := hevents ev hev
  exact ⟨trivial, rfl⟩

theorem sim_proposed (I : HInv m h) (S : Sim m h s) {entry : LogEntry} {w : Write} {thread : Nat}
    (hlead : (s.servers n).raft.state = .kLeader)
    (hentry : entry = { w.entry with
      term := (s.servers n).raft.currentTerm
      index := (s.servers n).raft.log.wal.lastIndex + 1 }) :
    ∃ h', HSteps m h h' ∧ Sim m h'
      (s.update n
        { s.servers n with
          raft := { (s.servers n).raft with log := (s.servers n).raft.log.append entry }
          writes := putThread (s.servers n).writes thread
            (some { w with stage := .waiting entry }) }
        none [.proposed n entry]) := by
  have N := S.node n
  have hidx : entry.index = (s.servers n).raft.log.entries.length + 1 := by
    rw [hentry, ← N.contiguous.lastIndex]
  have hterm : entryTerm entry = h.cur n := by rw [N.cur, hentry]
  have hl : h.leader (h.cur n) = some n := by rw [N.cur]; exact (N.leader hlead).leads
  have hsteps : HSteps m h (h.append n entry) := .single (.append n entry hl hterm)
  have x := extends_steps I hsteps
  refine ⟨h.append n entry, hsteps, S.update x (fun k hk => sameAt_append hk) ?_
    (N.propose I hlead hidx) (S.election_keep x) (S.reads_keep x) ?_ S.replications_keep
    (fun _ hp => by cases hp) (S.history.frame x rfl ?_)⟩
  · intro T
    by_cases hT : T = h.cur n
    · subst hT
      simp only [History.append, Function.update_self]
      refine (S.books _).concat ?_
      rw [hidx, N.leader_log I hlead, N.cur]
    · simp only [History.append, Function.update_of_ne hT]
      exact S.books T
  · intro w' hw' e' he'
    replace hw' : w' ∈ putThread (s.servers n).writes thread
      (some { w with stage := .waiting entry }) := hw'
    rcases mem_putThread hw' with h₁ | h₁
    · cases h₁
      cases he'
      refine ⟨by rw [show entry.term = h.cur n from hterm]; exact hl, by omega, ?_⟩
      rw [show entry.term = h.cur n from hterm, hidx, N.leader_log I hlead, ← N.cur]
      simp [History.append]
    · exact S.writes_keep x w' h₁ e' he'
  · intro ev hev
    obtain rfl := List.mem_singleton.mp hev
    exact ⟨trivial, rfl⟩

theorem sim_writeStep (I : HInv m h) (S : Sim m h s) {w : Write} {thread : Nat} {raft : RaftNode}
    {next : Option Write} {events : List Event} (hw : (s.servers n).writes[thread]? = some w)
    (hmove : WriteMove n (s.servers n).raft w raft next events) :
    ∃ h', HSteps m h h' ∧ Sim m h'
      (s.update n
        { s.servers n with
          raft := raft, writes := putThread (s.servers n).writes thread next }
        none events) := by
  have x := Extends.refl h
  -- a thread that is not waiting asks for nothing
  have keep : (∀ w', next = some w' → ∀ e, w'.stage ≠ .waiting e) →
      ∀ w' ∈ putThread (s.servers n).writes thread next, ∀ e, w'.stage = .waiting e →
        ProposedBy h n e := by
    intro hnext w' hw' e he
    rcases mem_putThread hw' with h₁ | h₁
    · exact absurd he (hnext w' h₁ e)
    · exact S.writes n w' h₁ e he
  cases hmove with
  | passed hnext hevents =>
    exact ⟨h, .refl, S.alone I (Alone.refl m n h) (S.node n) (S.election_keep x) (S.reads_keep x)
      (keep hnext) S.replications_keep (fun _ hp => by cases hp) (answered_quiet hevents)⟩
  | proposed _ hlead hentry => exact sim_proposed I S hlead hentry
  | returned hstage _ hnext hevents =>
    refine ⟨h, .refl, S.alone I (Alone.refl m n h) (S.node n) (S.election_keep x) (S.reads_keep x)
      (keep hnext) S.replications_keep (fun _ hp => by cases hp) ?_⟩
    have P := S.writes n w (List.mem_of_getElem? hw) _ hstage
    exact List.forall_mem_cons.mpr ⟨⟨P, rfl⟩, answered_quiet hevents⟩

/-- **A full round of acks leaves no room for an earlier leader of a later term.** -/
theorem RoundSim.confirmed (I : HInv m h) (H : HistSim m h s.history) {rpcs : List Rpc}
    {term start acks : Nat} (R : RoundSim m h rpcs s.history n term start acks [] none)
    (hmaj : (m.configOf n).majority ≤ acks) :
    ∀ U, LedBefore s.history start U → U ≤ term := by
  intro U hled
  by_contra hU
  obtain ⟨vs, C, _⟩ := R.counted
  obtain ⟨c, L, hmem⟩ := hled
  have hl := (H.events _ (List.mem_of_mem_take hmem)).1
  have hvs : IsMajority m.ids { v | Unsworn h s.history start term v } :=
    ⟨vs, C.nodup, C.members, by rw [C.length, m.ids_length]; exact hmaj, C.holds⟩
  obtain ⟨v, hv, hel⟩ := majority_inter hvs (I.elected U c hl).quorum
  exact hv U (by omega) ⟨c, L, hmem⟩ hel

theorem ReadSim.of_stage {rpcs : List Rpc} {hist : List Event} {rd : Read}
    (hst : ∀ term start acks todo waiting, rd.stage ≠ .round term start acks todo waiting) :
    ReadSim m h rpcs hist n rd :=
  fun term start acks todo waiting hs => absurd hs (hst term start acks todo waiting)

/-- A new round: the node itself has not sworn to anyone later. -/
theorem RoundSim.begin (I : HInv m h) (S : Sim m h s) (hn : n ∈ m.ids) :
    RoundSim m h s.rpcs s.history n (s.servers n).raft.currentTerm s.history.length 1
      (m.configOf n).otherPeers none := by
  refine ⟨Nat.le_refl _, m.otherPeers_nodup n, fun p hp => Membership.mem_otherPeers.mp hp,
    [n], Counted.self hn ?_, fun _ _ hp => by cases hp⟩
  intro U hU hled hel
  obtain ⟨c, L, hmem⟩ := hled
  have hreached := I.elector_reached (S.history.events _ (List.mem_of_mem_take hmem)).1 hel
  rw [(S.node n).cur] at hreached
  omega

/-- A round goes on with the acks it has. -/
theorem RoundSim.drop {rpcs : List Rpc} {hist : List Event} {term start acks : Nat}
    {todo : List NodeId} {waiting : Option (NodeId × Nat)}
    (R : RoundSim m h rpcs hist n term start acks todo waiting) :
    RoundSim m h rpcs hist n term start acks todo none := by
  obtain ⟨vs, C, _⟩ := R.counted
  exact ⟨R.start_le, R.todo_nodup, R.todo_members, vs, C, fun _ _ hp => by cases hp⟩

theorem RoundSim.waiting_peer {rpcs : List Rpc} {hist : List Event} {term start acks rpc : Nat}
    {peer : NodeId} {todo : List NodeId}
    (R : RoundSim m h rpcs hist n term start acks todo (some (peer, rpc))) :
    peer ∈ (m.configOf n).otherPeers := by
  obtain ⟨_, _, hp⟩ := R.counted
  exact (hp peer rpc rfl).1

/-- A successful reply is counted once. -/
theorem RoundSim.count {rpcs : List Rpc} {hist : List Event} {term start acks rpc : Nat}
    {peer : NodeId} {todo : List NodeId}
    (R : RoundSim m h rpcs hist n term start acks todo (some (peer, rpc)))
    (hclean : Unsworn h hist start term peer) :
    RoundSim m h rpcs hist n term start (acks + 1) todo none := by
  obtain ⟨vs, C, hp⟩ := R.counted
  obtain ⟨hother, hnew, htodo, _⟩ := hp peer rpc rfl
  refine ⟨R.start_le, R.todo_nodup, R.todo_members, peer :: vs, ?_, fun _ _ hp => by cases hp⟩
  refine ⟨List.nodup_cons.mpr ⟨hnew, C.nodup⟩, ?_, ?_, ?_, ?_⟩
  · exact List.cons_subset.mpr ⟨(Membership.mem_otherPeers.mp hother).1, C.members⟩
  · rw [List.length_cons, C.length]
  · exact List.forall_mem_cons.mpr ⟨htodo, C.fresh⟩
  · exact List.forall_mem_cons.mpr ⟨hclean, C.holds⟩

/-- A round sends a request to the next peer. -/
theorem RoundSim.ask {rpcs : List Rpc} {hist : List Event} {term start acks sentAt : Nat}
    {peer : NodeId} {todo : List NodeId} {req : AppendEntriesRequest}
    (R : RoundSim m h rpcs hist n term start acks (peer :: todo) none)
    (hterm : req.term = term) (hsent : start ≤ sentAt) :
    RoundSim m h (rpcs ++ [⟨n, peer, .appendEntries req, sentAt⟩]) hist n term start acks todo
      (some (peer, rpcs.length)) := by
  obtain ⟨vs, C, _⟩ := R.counted
  obtain ⟨hpeer, hnd⟩ := List.nodup_cons.mp R.todo_nodup
  refine ⟨R.start_le, hnd, fun p hp => R.todo_members p (List.mem_cons_of_mem _ hp), vs, ?_, ?_⟩
  · exact { C with fresh := fun v hv hmem => C.fresh v hv (List.mem_cons_of_mem _ hmem) }
  · intro p rpc hp
    cases hp
    exact ⟨Membership.mem_otherPeers.mpr (R.todo_members peer List.mem_cons_self),
      fun hmem => C.fresh _ hmem List.mem_cons_self, hpeer, _, req, List.getElem?_concat_length,
      rfl, rfl, hterm, hsent⟩

/-- What the reply to a round's request says. -/
theorem Sim.roundReply (S : Sim m h s) {term start acks rpc : Nat} {peer : NodeId}
    {todo : List NodeId} {resp : AppendEntriesResponse}
    (R : RoundSim m h s.rpcs s.history n term start acks todo (some (peer, rpc)))
    (hresp : s.appendReplyTo rpc = some resp) (hs : resp.success = true) :
    Unsworn h s.history start term peer := by
  obtain ⟨_, _, hp⟩ := R.counted
  obtain ⟨_, _, _, r, req, hr, rfl, hreq, rfl, hsent⟩ := hp peer rpc rfl
  exact ((S.reply (replyTo_of_append hresp) hr).append req resp hreq rfl hs).2.mono hsent

/-- After a reply of the round has been looked at, every ack it counts is still sound. -/
theorem Sim.roundCounted (S : Sim m h s) {term start acks acks' rpc now : Nat} {peer : NodeId}
    {todo : List NodeId} {resp : AppendEntriesResponse}
    (R : RoundSim m h s.rpcs s.history n term start acks todo (some (peer, rpc)))
    (hresp : s.appendReplyTo rpc = some resp)
    (hres : ((s.servers n).raft.confirmReply term acks peer resp now).2 = some acks') :
    RoundSim m h s.rpcs s.history n term start acks' todo none := by
  rcases (s.servers n).raft.confirmReply_cases term acks peer resp now with
    ⟨_, hr⟩ | hr | ⟨hsucc, _, _, hr⟩ | ⟨_, _, hr⟩ <;> rw [hr] at hres <;> cases hres
  · exact R.count (S.roundReply R hresp hsucc)
  · exact R.drop

/-- A GET goes on while the history stays as it is. -/
theorem Sim.keepRead (I : HInv m h) (S : Sim m h s) {thread : Nat} {next : Option Read}
    {send : Option (NodeId × Request)} {events : List Event}
    (hnext : ∀ rd, next = some rd →
      ReadSim m h (s.update n (s.servers n) send events).rpcs (s.history ++ events) n rd)
    (hsend : ∀ p, send = some p → RpcSim m h ⟨n, p.1, p.2, s.history.length⟩)
    (hevents : ∀ ev ∈ events, EventSim m h (s.history ++ events) ev ∧ ev.ledTerm = none) :
    ∃ h', HSteps m h h' ∧ Sim m h'
      (s.update n { s.servers n with reads := putThread (s.servers n).reads thread next }
        send events) := by
  have x := Extends.refl h
  refine ⟨h, .refl, S.alone I (Alone.refl m n h) (S.node n) (S.election_keep x) ?_
    (S.writes_keep x) S.replications_keep hsend hevents⟩
  intro rd hrd
  rcases mem_putThread hrd with h₁ | h₁
  · exact hnext rd h₁
  · exact S.reads_keep x rd h₁

/-- A GET goes on outside a round, or ends, with at most one event. -/
theorem Sim.passRead (I : HInv m h) (S : Sim m h s) {thread : Nat} {next : Option Read}
    {events : List Event}
    (hnext : ∀ rd, next = some rd →
      ∀ term start acks todo waiting, rd.stage ≠ .round term start acks todo waiting)
    (hevents : ∀ ev ∈ events, EventSim m h (s.history ++ events) ev ∧ ev.ledTerm = none) :
    ∃ h', HSteps m h h' ∧ Sim m h'
      (s.update n { s.servers n with reads := putThread (s.servers n).reads thread next }
        none events) :=
  S.keepRead I (fun rd hrd => ReadSim.of_stage (hnext rd hrd)) (fun _ hp => by cases hp) hevents

/-- A GET goes on after a reply that may have brought a newer term. -/
theorem Sim.followRead (I : HInv m h) (S : Sim m h s) {thread : Nat} {raft : RaftNode} {rd : Read}
    (A : Alone m n h h') (N : NodeSim m h' n raft)
    (hrd : ReadSim m h' (s.rpcs ++ []) (s.history ++ []) n rd) :
    ∃ h', HSteps m h h' ∧ Sim m h'
      (s.update n
        { s.servers n with
          raft := raft, reads := putThread (s.servers n).reads thread (some rd) }) := by
  have x := extends_steps I A.steps
  refine ⟨h', A.steps, S.alone I A N (S.election_keep x) ?_ (S.writes_keep x) S.replications_keep
    (fun _ hp => by cases hp) (fun _ hev => by cases hev)⟩
  intro rd' hmem
  replace hmem : rd' ∈ putThread (s.servers n).reads thread (some rd) := hmem
  rcases mem_putThread hmem with h₁ | h₁
  · cases h₁; exact hrd
  · exact S.reads_keep x rd' h₁

theorem sim_readSent (I : HInv m h) (S : Sim m h s) (hn : n ∈ m.ids) {thread : Nat} {rd : Read}
    {term start acks : Nat} {peer : NodeId} {todo : List NodeId} {req : AppendEntriesRequest}
    (hmem : rd ∈ (s.servers n).reads) (hstage : rd.stage = .round term start acks (peer :: todo) none)
    (hreq : (s.servers n).raft.confirmRequest (m.configOf n) term peer = some req) :
    ∃ h', HSteps m h h' ∧ Sim m h'
      (s.update n
        { s.servers n with
          reads := putThread (s.servers n).reads thread
            (some { rd with stage := .round term start acks todo (some (peer, s.rpcs.length)) }) }
        (some (peer, .appendEntries req))) := by
  have R := S.reads n rd hmem _ _ _ _ _ hstage
  have hother : peer ∈ (m.configOf n).otherPeers :=
    Membership.mem_otherPeers.mpr (R.todo_members peer List.mem_cons_self)
  obtain ⟨Q, hterm⟩ := (S.node n).confirmRequest I hother hreq
  refine S.keepRead I ?_ ?_ (fun _ hev => by cases hev)
  · intro rd' hrd' term' start' acks' todo' waiting hs
    cases hrd'
    cases hs
    rw [List.append_nil]
    exact R.ask hterm R.start_le
  · intro p hp
    cases hp
    refine ⟨hn, (Membership.mem_otherPeers.mp hother).1, ?_, ?_⟩
    · intro req' hreq'
      cases hreq'
    · intro req' hreq'
      cases hreq'
      exact Q

theorem sim_readStep (I : HInv m h) (S : Sim m h s) (hn : n ∈ m.ids) {thread : Nat} {rd : Read}
    {out : ReadOutcome} (hrd : (s.servers n).reads[thread]? = some rd)
    (hmove : ReadMove (m.configOf n) (s.servers n).raft rd s.clock s.history.length s.rpcs.length
      (s.readReply rd) out) :
    ∃ h', HSteps m h h' ∧ Sim m h'
      (s.update n
        { s.servers n with
          raft := out.raft, reads := putThread (s.servers n).reads thread out.thread }
        (out.send.map fun p => (p.1, .appendEntries p.2)) out.events) := by
  have hmem : rd ∈ (s.servers n).reads := List.mem_of_getElem? hrd
  cases hmove with
  | passed hstage =>
    refine S.passRead I ?_ (fun _ hev => by cases hev)
    intro rd' hrd' _ _ _ _ _ hs
    cases hrd'
    rcases hstage with h₁ | h₁ <;> rw [h₁] at hs <;> cases hs
  | recent _ _ =>
    refine S.passRead I ?_ ?_
    · intro rd' hrd'
      cases hrd'
      simp
    · intro ev hev
      obtain rfl := List.mem_singleton.mp hev
      exact ⟨trivial, rfl⟩
  | begun _ _ _ =>
    refine S.keepRead I ?_ (fun _ hp => by cases hp) (fun _ hev => by cases hev)
    intro rd' hrd' term start acks todo waiting hs
    cases hrd'
    cases hs
    exact (RoundSim.begin I S hn).frame S.history (Extends.refl h)
  | confirmed hstage hmaj =>
    have R := S.reads n rd hmem _ _ _ _ _ hstage
    refine S.passRead I ?_ ?_
    · intro rd' hrd'
      cases hrd'
      simp
    · intro ev hev
      obtain rfl := List.mem_singleton.mp hev
      refine ⟨⟨?_, fun U hU => ?_⟩, rfl⟩
      · rw [List.length_append]
        exact Nat.le_add_right_of_le R.start_le
      · exact R.confirmed I S.history hmaj U (hU.of_append R.start_le)
  | sent hstage hreq => exact sim_readSent I S hn hmem hstage hreq
  | lost hstage hreply hres =>
    have R := S.reads n rd hmem _ _ _ _ _ hstage
    obtain ⟨h', A, N⟩ := (S.node n).confirmReply I _ _ R.waiting_peer _ _
    exact S.followRead I A N (ReadSim.of_stage (by simp))
  | counted hstage hreply hres =>
    rename_i term start acks acks' rpc peer todo resp
    have R := S.reads n rd hmem _ _ _ _ _ hstage
    have hresp : s.appendReplyTo rpc = some resp := by
      unfold readReply at hreply
      rw [hstage] at hreply
      exact hreply
    obtain ⟨h', A, N⟩ := (S.node n).confirmReply I term acks R.waiting_peer resp s.clock
    refine S.followRead I A N ?_
    intro term' start' todo' acks'' waiting hs
    cases hs
    exact (S.roundCounted R hresp hres).frame S.history (extends_steps I A.steps)
  | done _ =>
    refine S.passRead I (fun _ hrd' => by cases hrd') ?_
    intro ev hev
    obtain rfl := List.mem_singleton.mp hev
    exact ⟨trivial, rfl⟩
  | refused _ =>
    refine S.passRead I (fun _ hrd' => by cases hrd') ?_
    intro ev hev
    obtain rfl := List.mem_singleton.mp hev
    exact ⟨trivial, rfl⟩

/-! ## Every step, every run -/

/-- **Every step of the cluster is a sequence of moves of the history.** -/
theorem sim_move {a : Action} {s' : Cluster} (I : HInv m h) (S : Sim m h s)
    (mv : Move m s a s') : ∃ h', HSteps m h h' ∧ Sim m h' s' := by
  have x := Extends.refl h
  cases mv with
  | tick d =>
    exact ⟨h, .refl, S.node, S.election, S.reads, S.writes, S.replications, S.rpcs, S.replies,
      S.history, S.books⟩
  | requestVote _ hr hreq _ => exact sim_requestVote I S hr hreq
  | appendEntries _ hr hreq _ => exact sim_appendEntries I S hr hreq
  | crash _ _ =>
    exact ⟨h, .refl, S.alone I (Alone.refl m _ h) (S.node _) (fun _ he => by cases he)
      (fun _ hrd => by cases hrd) (fun _ hw => by cases hw) (fun _ hrpc => by cases hrpc) (fun _ hp => by cases hp)
      (fun _ hev => by cases hev)⟩
  | restart _ _ hr =>
    exact ⟨h, .refl, S.alone I (Alone.refl m _ h) ((S.node _).restart hr) (fun _ he => by cases he)
      (fun _ hrd => by cases hrd) (fun _ hw => by cases hw) (fun _ hrpc => by cases hrpc) (fun _ hp => by cases hp)
      (fun _ hev => by cases hev)⟩
  | startElection hn _ _ => exact sim_startElection I S hn
  | callVoter hn he => exact ⟨h, .refl, sim_callVoter I S hn he⟩
  | voteLost _ he => exact ⟨h, .refl, sim_voteLost I S he⟩
  | voteReply _ he hresp => exact sim_voteReply I S he hresp
  | endElection _ he => exact sim_endElection I S he
  | replicateIdle _ => exact ⟨h, .refl, S⟩
  | replicate hn _ hpeer hreq => exact ⟨h, .refl, sim_replicate I S hn hpeer hreq⟩
  | replicateReply hn hrpc hr hreq hresp hraft =>
    exact sim_replicateReply I S hn hrpc hr hreq hresp hraft
  | write _ _ =>
    refine ⟨h, .refl, S.alone I (Alone.refl m _ h) (S.node _) (S.election_keep x) (S.reads_keep x) ?_
      S.replications_keep (fun _ hp => by cases hp) (fun _ hev => by cases hev)⟩
    intro w hw e he
    rcases List.mem_append.mp hw with h₁ | h₁
    · exact S.writes _ w h₁ e he
    · obtain rfl := List.mem_singleton.mp h₁
      cases he
  | writeStep _ hw hmove => exact sim_writeStep I S hw hmove
  | read _ _ =>
    refine ⟨h, .refl, S.alone I (Alone.refl m _ h) (S.node _) (S.election_keep x) ?_
      (S.writes_keep x) S.replications_keep (fun _ hp => by cases hp) (fun _ hev => by cases hev)⟩
    intro rd hrd
    rcases List.mem_append.mp hrd with h₁ | h₁
    · exact S.reads_keep x rd h₁
    · obtain rfl := List.mem_singleton.mp h₁
      exact ReadSim.of_stage (by simp)
  | readStep hn hrd hmove => exact sim_readStep I S hn hrd hmove
  | readLost _ hrd hstage =>
    refine ⟨h, .refl, S.alone I (Alone.refl m _ h) (S.node _) (S.election_keep x) ?_
      (S.writes_keep x) S.replications_keep (fun _ hp => by cases hp) (fun _ hev => by cases hev)⟩
    intro rd' hrd'
    rcases List.mem_or_eq_of_mem_set hrd' with h₁ | rfl
    · exact S.reads_keep x rd' h₁
    · intro _ _ _ _ _ hs
      cases hs
      exact (S.reads _ _ (List.mem_of_getElem? hrd) _ _ _ _ _ hstage).drop.frame S.history x

theorem sim_init (m : Membership) (hash : Bytes → Nat) : Sim m History.init (Cluster.init hash) where
  node n := NodeSim.fresh m n hash
  election n e he := by cases he
  reads n rd hrd := by cases hrd
  writes n w hw := by cases hw
  replications n rpc hrpc := by cases hrpc
  rpcs r hr := by cases hr
  replies p hp := by cases hp
  history := ⟨fun ev hev => (by cases hev), fun n T hl => (by cases hl), List.nodup_nil,
    fun k n T N L hmem => (by simp [Cluster.init] at hmem)⟩
  books T := Numbered.nil

/-- **Every run of the cluster refines a run of the abstract protocol.** -/
theorem run_refines {hash : Bytes → Nat} {ok : Cluster → Action → Prop} (hr : Run m hash ok s) :
    ∃ h, HSteps m History.init h ∧ Sim m h s := by
  induction hr with
  | init => exact ⟨History.init, .refl, sim_init m hash⟩
  | step _ _ hs ih =>
    obtain ⟨h, st, S⟩ := ih
    obtain ⟨h', st', S'⟩ := sim_move (inv_steps (inv_init _ _) st) S (step_move hs)
    exact ⟨h', st.trans st', S'⟩

/-- The history of a run satisfies the invariant of the abstract protocol. -/
theorem run_simulated {hash : Bytes → Nat} {ok : Cluster → Action → Prop} (hr : Run m hash ok s) :
    ∃ h, HInv m h ∧ Sim m h s := by
  obtain ⟨h, st, S⟩ := run_refines hr
  exact ⟨h, inv_steps (inv_init _ _) st, S⟩

end NeuralKV
