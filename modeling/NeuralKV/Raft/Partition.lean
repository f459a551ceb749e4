import NeuralKV.Raft.Leadership
import NeuralKV.Raft.Terms

/-!
# A minority that is cut off

What a network partition leaves possible.  From some state on, no request between the two sides is
delivered any more; requests sent before may still arrive, replies to them may still be read, and
within each side everything goes on, with crashes and restarts.

* `ElectionMove`, `move_election` — what a step does to a candidacy.
* `Divided` — the invariant: a candidacy on the small side that began after the cut has counted
  only votes of its own side, and a leader there knows nothing new of the other side.
* `minority_makes_no_progress` — **the small side elects no leader** but one that was standing
  already, **and commits nothing** that was not in its leader's log when the cut happened.
-/

set_option autoImplicit false

namespace NeuralKV

open Consensus Cluster
open Runs (anyStep exists_run)

/-! ## What a step does to an election -/

/-- The ways a step can leave node `n` in an election. -/
inductive ElectionMove (m : Membership) (s s' : Cluster) (n : NodeId) : Election → Prop where
  | kept {e : Election} (he : (s.servers n).election = some e) : ElectionMove m s s' n e
  | started {e : Election} (hn : n ∈ m.ids) (hvotes : e.votes = 1)
      (htodo : e.todo = (m.configOf n).otherPeers) (hpending : e.pending = none) :
      ElectionMove m s s' n e
  | called {req : RequestVoteRequest} {votes : Nat} {peer : NodeId} {todo : List NodeId} {r : Rpc}
      (he : (s.servers n).election = some ⟨req, votes, peer :: todo, none⟩)
      (hr : s'.rpcs = s.rpcs ++ [r]) (hcaller : r.caller = n) (hcallee : r.callee = peer) :
      ElectionMove m s s' n ⟨req, votes, todo, some s.rpcs.length⟩
  | lost {req : RequestVoteRequest} {votes rpc : Nat} {todo : List NodeId}
      (he : (s.servers n).election = some ⟨req, votes, todo, some rpc⟩) :
      ElectionMove m s s' n ⟨req, votes, todo, none⟩
  | counted {req : RequestVoteRequest} {votes rpc : Nat} {todo : List NodeId}
      {resp : RequestVoteResponse}
      (he : (s.servers n).election = some ⟨req, votes, todo, some rpc⟩)
      (hresp : s.voteReplyTo rpc = some resp) :
      ElectionMove m s s' n ⟨req, votes + 1, todo, none⟩

section Elections

variable {m : Membership} {s s' : Cluster} {a : Action} {n : NodeId} {e : Election}

/-- The election of a process after a step at `k`. -/
theorem election_update {k : NodeId} {srv : Server}
    (hk : ∀ e, srv.election = some e → ElectionMove m s s' k e)
    (he : (Function.update s.servers k srv n).election = some e) : ElectionMove m s s' n e :=
  forall_update (P := fun n srv => ∀ e, srv.election = some e → ElectionMove m s s' n e)
    hk (fun _ _ _ he => .kept he) n e he

theorem election_voteReply {req : RequestVoteRequest} {votes rpc : Nat} {todo : List NodeId}
    {resp : RequestVoteResponse} {node : RaftNode}
    (he : (s.servers n).election = some ⟨req, votes, todo, some rpc⟩)
    (hresp : s.voteReplyTo rpc = some resp) :
    ∀ e, (node.voteReply req.term votes resp).2.map
      (fun votes => (⟨req, votes, todo, none⟩ : Election)) = some e →
        ElectionMove m s s' n e := by
  intro e hmap
  rcases node.voteReply_cases req.term votes resp with h | ⟨_, h⟩ | ⟨_, h⟩ | h <;>
    rw [h] at hmap <;> cases hmap
  · exact .counted he hresp
  · exact .lost he

/-- **The inversion of a step, as far as elections go.** -/
theorem move_election (mv : Move m s a s') (he : (s'.servers n).election = some e) :
    ElectionMove m s s' n e := by
  cases mv with
  | tick d => exact .kept he
  | replicateIdle _ => exact .kept he
  | crash _ _ => exact election_update (fun _ h => by cases h) he
  | restart _ _ _ => exact election_update (fun _ h => by cases h) he
  | startElection hn _ _ =>
    refine election_update (fun e h => ?_) he
    cases h
    exact .started hn rfl rfl rfl
  | callVoter _ hold =>
    refine election_update (fun e h => ?_) he
    cases h
    exact .called hold rfl rfl rfl
  | voteLost _ hold =>
    refine election_update (fun e h => ?_) he
    cases h
    exact .lost hold
  | voteReply _ hold hresp => exact election_update (election_voteReply hold hresp) he
  | endElection _ _ => exact election_update (fun _ h => by cases h) he
  | _ =>
    refine election_update (fun e h => ?_) he
    exact .kept h

end Elections

/-! ## The cut -/

/-- Caller and callee are on the same side. -/
def Within (side : List NodeId) (r : Rpc) : Prop := r.caller ∈ side ↔ r.callee ∈ side

instance (side : List NodeId) (r : Rpc) : Decidable (Within side r) :=
  inferInstanceAs (Decidable (r.caller ∈ side ↔ r.callee ∈ side))

/-- No request that was sent after the first `sent` ones reaches the other side. -/
def cutOff (side : List NodeId) (sent : Nat) (s : Cluster) : Action → Prop
  | .deliver rpc => rpc < sent ∨ ∀ r ∈ s.rpcs[rpc]?, Within side r
  | _ => True

instance (side : List NodeId) (sent : Nat) (s : Cluster) :
    (a : Action) → Decidable (cutOff side sent s a)
  | .deliver rpc => inferInstanceAs (Decidable (rpc < sent ∨ ∀ r ∈ s.rpcs[rpc]?, Within side r))
  | .tick _ => instDecidableTrue
  | .act _ _ => instDecidableTrue

/-- How many members a side has. -/
def Membership.sizeOf (m : Membership) (side : List NodeId) : Nat :=
  m.ids.countP (fun n => decide (n ∈ side))

/-- One for an RPC to a member of the side that is still to be answered. -/
def awaited (side : List NodeId) (rpcs : List Rpc) : Option Nat → Nat
  | none => 0
  | some rpc => if (rpcs[rpc]?).any (fun r => decide (r.callee ∈ side)) then 1 else 0

/-- An election that began after the cut: with the votes of the side that are still to come it gets
no further than the side is large. -/
structure Outvoted (m : Membership) (side : List NodeId) (sent : Nat) (rpcs : List Rpc) (n : NodeId)
    (e : Election) : Prop where
  votes : e.votes + e.todo.countP (fun p => decide (p ∈ side)) + awaited side rpcs e.pending ≤
    m.sizeOf side
  pending : ∀ rpc, e.pending = some rpc → sent ≤ rpc ∧ ∃ r, rpcs[rpc]? = some r ∧ r.caller = n

/-- What holds after the cut, which happened in `c`. -/
structure Divided (m : Membership) (side : List NodeId) (c s : Cluster) : Prop where
  grown : c.rpcs <+: s.rpcs
  term : ∀ n, (c.servers n).raft.currentTerm ≤ (s.servers n).raft.currentTerm
  answered : ∀ p ∈ s.replies, ∀ r, s.rpcs[p.1]? = some r → p.1 < c.rpcs.length ∨ Within side r
  elections : ∀ n ∈ side, ∀ e, (s.servers n).election = some e →
    (∃ e₀, (c.servers n).election = some e₀ ∧ e₀.req = e.req) ∨
      Outvoted m side c.rpcs.length s.rpcs n e
  matched : ∀ n ∈ side, (s.servers n).raft.state = .kLeader → ∀ p ∈ (s.servers n).raft.matchIndex,
    p.1 ∉ side → p.2 ≤ (c.servers n).raft.log.entries.length

/-! ## Elections on a side -/

section Votes

variable {m : Membership} {side : List NodeId} {sent : Nat} {rpcs : List Rpc} {n : NodeId}

theorem awaited_append {pending : Option Nat} {new : List Rpc}
    (hp : ∀ rpc, pending = some rpc → ∃ r, rpcs[rpc]? = some r) :
    awaited side (rpcs ++ new) pending = awaited side rpcs pending := by
  cases pending with
  | none => rfl
  | some rpc =>
    obtain ⟨r, hr⟩ := hp rpc rfl
    simp only [awaited, hr, getElem?_append_rpcs hr]

theorem Outvoted.grow {e : Election} (O : Outvoted m side sent rpcs n e) (new : List Rpc) :
    Outvoted m side sent (rpcs ++ new) n e := by
  refine ⟨?_, fun rpc hrpc => ?_⟩
  · rw [awaited_append fun rpc hrpc => ⟨_, (O.pending rpc hrpc).2.choose_spec.1⟩]
    exact O.votes
  · obtain ⟨hsent, r, hr, hcaller⟩ := O.pending rpc hrpc
    exact ⟨hsent, r, getElem?_append_rpcs hr, hcaller⟩

/-- A member of a side and the others on it. -/
theorem Membership.sizeOf_eq (hn : n ∈ m.ids) (hside : n ∈ side) :
    m.sizeOf side = (m.configOf n).otherPeers.countP (fun p => decide (p ∈ side)) + 1 := by
  have hothers : (m.configOf n).otherPeers = m.ids.erase n :=
    (m.ids_nodup.erase_eq_filter n).symm
  rw [hothers, Membership.sizeOf, (List.perm_cons_erase hn).countP_eq, List.countP_cons,
    if_pos (decide_eq_true hside)]

/-- A candidate begins with its own vote and all others of its side ahead. -/
theorem Outvoted.start (hn : n ∈ m.ids) (hside : n ∈ side) {e : Election} (hvotes : e.votes = 1)
    (htodo : e.todo = (m.configOf n).otherPeers) (hpending : e.pending = none) :
    Outvoted m side sent rpcs n e := by
  refine ⟨?_, fun rpc hrpc => by rw [hpending] at hrpc; cases hrpc⟩
  rw [hvotes, htodo, hpending, Membership.sizeOf_eq hn hside, awaited]
  omega

theorem Outvoted.call {req : RequestVoteRequest} {votes : Nat} {peer : NodeId} {todo : List NodeId}
    {r : Rpc} (O : Outvoted m side sent rpcs n ⟨req, votes, peer :: todo, none⟩)
    (hsent : sent ≤ rpcs.length) (hcaller : r.caller = n) (hcallee : r.callee = peer) :
    Outvoted m side sent (rpcs ++ [r]) n ⟨req, votes, todo, some rpcs.length⟩ := by
  have hnew : (rpcs ++ [r])[rpcs.length]? = some r := by simp
  have hvotes := O.votes
  refine ⟨?_, fun rpc hrpc => ?_⟩
  · simp only [List.countP_cons, awaited] at hvotes
    simp only [awaited, hnew, Option.any_some, hcallee]
    omega
  · cases hrpc
    exact ⟨hsent, r, hnew, hcaller⟩

theorem Outvoted.lose {req : RequestVoteRequest} {votes rpc : Nat} {todo : List NodeId}
    (O : Outvoted m side sent rpcs n ⟨req, votes, todo, some rpc⟩) :
    Outvoted m side sent rpcs n ⟨req, votes, todo, none⟩ := by
  have hvotes := O.votes
  refine ⟨?_, fun rpc hrpc => by cases hrpc⟩
  simp only [awaited] at hvotes ⊢
  omega

/-- A vote that is counted comes from the candidate's own side. -/
theorem Outvoted.count {req : RequestVoteRequest} {votes rpc : Nat} {todo : List NodeId}
    (O : Outvoted m side sent rpcs n ⟨req, votes, todo, some rpc⟩) (hside : n ∈ side)
    (hwithin : ∀ r, rpcs[rpc]? = some r → rpc < sent ∨ Within side r) :
    Outvoted m side sent rpcs n ⟨req, votes + 1, todo, none⟩ := by
  obtain ⟨hsent, r, hr, hcaller⟩ := O.pending rpc rfl
  have hcallee : r.callee ∈ side := by
    rcases hwithin r hr with hlt | hw
    · omega
    · exact hw.mp (hcaller ▸ hside)
  have hvotes := O.votes
  refine ⟨?_, fun rpc hrpc => by cases hrpc⟩
  simp only [awaited, hr, Option.any_some, hcallee, decide_true, if_true] at hvotes
  simp only [awaited]
  omega

end Votes

/-! ## The invariant -/

section Invariant

variable {m : Membership} {h h₀ : Hist} {side : List NodeId} {c s s' : Cluster} {a : Action}
  {n : NodeId}

/-- Requests are only added. -/
theorem rpcs_move (mv : Move m s a s') : s.rpcs <+: s'.rpcs := by
  cases mv with
  | tick d => exact List.prefix_refl _
  | replicateIdle _ => exact List.prefix_refl _
  | _ => exact List.prefix_append _ _

/-- Replies are only given on delivery, and nothing is sent then. -/
theorem replies_move (mv : Move m s a s') :
    ∀ p ∈ s'.replies, p ∈ s.replies ∨ (a = .deliver p.1 ∧ s'.rpcs = s.rpcs) := by
  have new : ∀ {k : NodeId} {raft : RaftNode} {rpc : Nat} {resp : Response},
      ∀ p ∈ (s.answer k raft rpc resp).replies, p ∈ s.replies ∨
        (Action.deliver rpc = .deliver p.1 ∧ (s.answer k raft rpc resp).rpcs = s.rpcs) := by
    intro k raft rpc resp p hp
    rcases List.mem_append.mp hp with hold | hnew
    · exact Or.inl hold
    · obtain rfl := List.mem_singleton.mp hnew
      exact Or.inr ⟨rfl, List.append_nil _⟩
  cases mv with
  | requestVote _ _ _ _ => exact new
  | appendEntries _ _ _ _ => exact new
  | _ => exact fun p hp => Or.inl hp

theorem Divided.answered_move (D : Divided m side c s) (S : Sim m h s) (mv : Move m s a s')
    (ha : cutOff side c.rpcs.length s a) :
    ∀ p ∈ s'.replies, ∀ r, s'.rpcs[p.1]? = some r → p.1 < c.rpcs.length ∨ Within side r := by
  intro p hp r hr
  rcases replies_move mv p hp with hold | ⟨hdeliver, hsame⟩
  · obtain ⟨r', hr', _⟩ := S.replies p hold
    rw [getElem?_of_isPrefix (rpcs_move mv) hr'] at hr
    cases hr
    exact D.answered p hold r hr'
  · rw [hsame] at hr
    rw [hdeliver] at ha
    exact ha.imp_right fun hall => hall r hr

theorem Divided.elections_move (D : Divided m side c s) (mv : Move m s a s') :
    ∀ n ∈ side, ∀ e, (s'.servers n).election = some e →
      (∃ e₀, (c.servers n).election = some e₀ ∧ e₀.req = e.req) ∨
        Outvoted m side c.rpcs.length s'.rpcs n e := by
  intro n hn e he
  obtain ⟨new, hnew⟩ := rpcs_move mv
  cases move_election mv he with
  | kept hold =>
    rw [← hnew]
    exact (D.elections n hn e hold).imp_right fun O => O.grow new
  | started hmem hvotes htodo hpending => exact Or.inr (.start hmem hn hvotes htodo hpending)
  | called hold hr hcaller hcallee =>
    rw [hr]
    exact (D.elections n hn _ hold).imp_right fun O => O.call D.grown.length_le hcaller hcallee
  | lost hold =>
    rw [← hnew]
    exact (D.elections n hn _ hold).imp_right fun O => O.lose.grow new
  | counted hold hresp =>
    rw [← hnew]
    refine (D.elections n hn _ hold).imp_right fun O => (O.count hn fun r hr => ?_).grow new
    exact D.answered _ (mem_replies (replyTo_of_vote hresp)) r hr

/-- What a leader had sent before the cut was in its log then. -/
theorem Divided.sent_before (D : Divided m side c s) (I₀ : HInv m h₀) (S₀ : Sim m h₀ c) {r : Rpc}
    {req : AppendEntriesRequest} (hr : r ∈ c.rpcs) (hreq : r.req = .appendEntries req)
    (hterm : (s.servers r.caller).raft.currentTerm = req.term) {last : LogEntry}
    (hlast : req.entries.getLast? = some last) :
    last.index ≤ (c.servers r.caller).raft.log.entries.length := by
  have A := (S₀.rpcs r hr).1.append req hreq
  have E := I₀.elected _ _ A.leads
  have N := S₀.node r.caller
  -- the caller was in the term of the request already, and as its leader
  have hcur : h₀.cur r.caller = req.term := by
    refine Nat.le_antisymm ?_ E.reached
    rw [N.cur, ← hterm]
    exact D.term r.caller
  have hlog : (c.servers r.caller).raft.log.entries = h₀.book req.term := by
    rw [← N.log]
    exact E.log hcur
  have hnumbered := NumberedFrom.of_segment (S₀.books req.term) A.entries
  rw [List.getLast?_eq_getElem?] at hlast
  have hindex := hnumbered _ _ hlast
  have hlen := (List.getElem?_eq_some_iff.mp hlast).1
  have hle := A.take_eq
  rw [hlog]
  omega

theorem Divided.matched_move (D : Divided m side c s) (I₀ : HInv m h₀) (S₀ : Sim m h₀ c)
    (S : Sim m h s) (mv : Move m s a s') : ∀ n ∈ side, (s'.servers n).raft.state = .kLeader →
      ∀ p ∈ (s'.servers n).raft.matchIndex, p.1 ∉ side →
        p.2 ≤ (c.servers n).raft.log.entries.length := by
  intro n hn hl p hp hside
  generalize hr' : (s'.servers n).raft = r' at hl hp
  have hmove := move_leader S mv (n := n) (hr' ▸ hl)
  rw [hr'] at hmove
  cases hmove with
  | kept hsame =>
    rw [hsame.matchIndex] at hp
    exact D.matched n hn hsame.state p hp hside
  | elected _ _ _ _ =>
    obtain ⟨id, _, rfl⟩ := List.mem_map.mp hp
    exact Nat.zero_le _
  | proposed _ hst _ => exact D.matched n hn hst p hp hside
  | @entered rpc peer req resp _ hst harr _ hterm =>
    rw [(RaftNode.advanceCommitIndex_fields _).2.2.1] at hp
    unfold RaftNode.recordAck at hp
    split at hp
    · exact D.matched n hn hst p hp hside
    · rename_i last hlast
      rcases PeerMap.mem_put hp with rfl | hp
      · -- a reply from the other side: its request was sent before the cut
        obtain ⟨r, hr, hcallee, hreq⟩ := harr.sent
        obtain ⟨r₁, hr₁, hcaller, _⟩ := S.replications n rpc harr.waiting
        rw [hr] at hr₁
        cases hr₁
        have hbefore : rpc < c.rpcs.length := by
          rcases D.answered _ (mem_replies (replyTo_of_append harr.reply)) r hr with hlt | hw
          · exact hlt
          · exact absurd (hcallee ▸ hw.mp (hcaller ▸ hn)) hside
        have hmem : r ∈ c.rpcs := by
          obtain ⟨new, hnew⟩ := D.grown
          rw [← hnew, List.getElem?_append_left hbefore] at hr
          exact List.mem_of_getElem? hr
        subst hcaller
        exact D.sent_before I₀ S₀ hmem hreq hterm hlast
      · exact D.matched n hn hst p hp hside
  | backedOff _ hst _ _ _ => exact D.matched n hn hst p hp hside

/-- The invariant holds at the cut. -/
theorem divided_start (I : HInv m h) (S : Sim m h c) : Divided m side c c where
  grown := List.prefix_refl _
  term _ := Nat.le_refl _
  answered p hp _ _ := by
    obtain ⟨r, hr, _⟩ := S.replies p hp
    exact Or.inl (List.getElem?_eq_some_iff.mp hr).1
  elections _ _ e he := Or.inl ⟨e, he, rfl⟩
  matched n _ hl p hp _ := by
    have hle := Nat.le_trans (((S.node n).leader hl).acked p hp) (I.ack_le _ _)
    rwa [← (S.node n).leader_log I hl] at hle

theorem divided_move (D : Divided m side c s) (I₀ : HInv m h₀) (S₀ : Sim m h₀ c) (S : Sim m h s)
    (mv : Move m s a s') (ha : cutOff side c.rpcs.length s a) : Divided m side c s' where
  grown := D.grown.trans (rpcs_move mv)
  term n := Nat.le_trans (D.term n) (move_term S mv n).le
  answered := D.answered_move S mv ha
  elections := D.elections_move mv
  matched := D.matched_move I₀ S₀ S mv

/-! ## What the small side can do -/

/-- **A majority of match indices reaches across the cut**, so it reaches no further than the log
did then. -/
theorem Divided.commit_le (D : Divided m side c s) (S : Sim m h s)
    (hminor : m.sizeOf side < Quorum.majority m.ids.length) (hmem : n ∈ m.ids) (hn : n ∈ side)
    (hl : (s.servers n).raft.state = .kLeader) {N : Nat}
    (hmaj : Quorum.majority ((s.servers n).raft.matchIndex.length + 1) ≤
      ((s.servers n).raft.log.lastIndex :: (s.servers n).raft.matchIndex.map (·.2)).countP
        (fun x => decide (N ≤ x))) : N ≤ (c.servers n).raft.log.entries.length := by
  by_contra hfar
  have hkeys := ((S.node n).leader hl).keys
  -- every match index that reaches `N` belongs to the side
  have hown : (s.servers n).raft.matchIndex.countP (fun p => decide (N ≤ p.2)) ≤
      (m.configOf n).otherPeers.countP (fun p => decide (p ∈ side)) := by
    rw [← hkeys, List.countP_map]
    refine List.countP_mono_left fun p hp hreach => ?_
    by_contra hout
    have := D.matched n hn hl p hp (by simpa using hout)
    have : N ≤ p.2 := of_decide_eq_true hreach
    omega
  have hlen : (s.servers n).raft.matchIndex.length + 1 = m.ids.length := by
    rw [← List.length_map (f := (·.1)), hkeys, m.otherPeers_length hmem]
  have hsize : m.sizeOf side = _ := Membership.sizeOf_eq hmem hn
  have hself : ((s.servers n).raft.log.lastIndex ::
      (s.servers n).raft.matchIndex.map (·.2)).countP (fun x => decide (N ≤ x)) ≤
        (s.servers n).raft.matchIndex.countP (fun p => decide (N ≤ p.2)) + 1 := by
    rw [List.countP_cons, List.countP_map]
    show (s.servers n).raft.matchIndex.countP (fun p => decide (N ≤ p.2)) + _ ≤ _
    split <;> omega
  rw [hlen] at hmaj
  omega

/-- What the cut allows an event on the side to be. -/
def Confined (side : List NodeId) (c : Cluster) : Event → Prop
  | .becameLeader n T _ => n ∈ side → ∃ e, (c.servers n).election = some e ∧ e.req.term = T
  | .advanced n _ N _ => n ∈ side → N ≤ (c.servers n).raft.log.entries.length
  | _ => True

theorem confined_answered {events : List Event}
    (hevents : ∀ ev ∈ events, ∃ e resp, ev = .answered n e resp) :
    ∀ ev ∈ events, Confined side c ev := by
  intro ev hev
  obtain ⟨e, resp, rfl⟩ := hevents ev hev
  trivial

theorem Divided.endElection (D : Divided m side c s)
    (hminor : m.sizeOf side < Quorum.majority m.ids.length) {req : RequestVoteRequest} {votes : Nat}
    (he : (s.servers n).election = some ⟨req, votes, [], none⟩)
    (hwon : ((s.servers n).raft.finishElection (m.configOf n) req.term votes).2 = true)
    (L : List LogEntry) : Confined side c (.becameLeader n req.term L) := by
  intro hn
  rcases D.elections n hn _ he with ⟨e₀, he₀, hreq⟩ | O
  · exact ⟨e₀, he₀, by rw [hreq]⟩
  · -- the votes of the side do not make a majority
    have hvotes := O.votes
    unfold RaftNode.finishElection at hwon
    split at hwon
    · rename_i hmaj
      have hmaj := hmaj.2.2
      rw [ClusterConfig.majority, Membership.configOf, ← m.ids_length] at hmaj
      simp only [awaited, List.countP_nil] at hvotes
      omega
    · cases hwon

/-- A commit index that has moved is one that a majority of match indices reaches. -/
theorem replicateReply_reached {r : RaftNode} {term : Nat} {entries : List LogEntry} {peer : NodeId}
    {resp : AppendEntriesResponse} {now : Nat}
    (hmoved : (r.replicateReply term entries peer resp now).commitIndex ≠ r.commitIndex) :
    (r.replicateReply term entries peer resp now).state = .kLeader ∧
      Quorum.majority ((r.replicateReply term entries peer resp now).matchIndex.length + 1) ≤
        ((r.replicateReply term entries peer resp now).log.lastIndex ::
          (r.replicateReply term entries peer resp now).matchIndex.map (·.2)).countP
            (fun x => decide ((r.replicateReply term entries peer resp now).commitIndex ≤ x)) := by
  rcases r.replicateReply_cases term entries peer resp now with
    h | ⟨_, h⟩ | ⟨hl, _, _, h⟩ | ⟨_, _, _, h⟩ <;> rw [h] at hmoved ⊢
  · exact absurd rfl hmoved
  · exact absurd rfl hmoved
  · obtain ⟨hcommit, _, _, hstate, _⟩ := r.recordAck_fields entries peer now
    rcases (r.recordAck entries peer now).advanceCommitIndex_cases with
      h | ⟨N, _, _, _, _, hmaj, h⟩ <;> rw [h] at hmoved ⊢
    · exact absurd hcommit hmoved
    · exact ⟨hstate.trans hl, hmaj⟩
  · exact absurd rfl hmoved

/-- **Every new event is confined.** -/
theorem Divided.events_move {h' : Hist} (D : Divided m side c s) (D' : Divided m side c s')
    (S' : Sim m h' s') (hminor : m.sizeOf side < Quorum.majority m.ids.length)
    (mv : Move m s a s') :
    ∃ evs, s'.history = s.history ++ evs ∧ ∀ ev ∈ evs, Confined side c ev := by
  have none : ∀ ev ∈ ([] : List Event), Confined side c ev := fun _ hev => by cases hev
  have one : ∀ {ev : Event}, Confined side c ev → ∀ ev' ∈ [ev], Confined side c ev' := by
    intro ev hev ev' hmem
    obtain rfl := List.mem_singleton.mp hmem
    exact hev
  cases mv with
  | tick d => exact ⟨[], (List.append_nil _).symm, none⟩
  | replicateIdle _ => exact ⟨[], (List.append_nil _).symm, none⟩
  | endElection _ he =>
    refine ⟨_, rfl, ?_⟩
    split
    · exact one (D.endElection hminor he ‹_› _)
    · exact none
  | @replicateReply k rpc r req resp raft hk _ _ _ _ hraft =>
    refine ⟨_, rfl, ?_⟩
    split
    · exact none
    · rename_i hmoved
      refine one fun hside => ?_
      subst hraft
      obtain ⟨hl, hmaj⟩ := replicateReply_reached hmoved
      refine D'.commit_le S' hminor hk hside ?_ ?_
      · simpa [Cluster.update] using hl
      · simpa [Cluster.update] using hmaj
  | writeStep _ _ hmove =>
    refine ⟨_, rfl, ?_⟩
    cases hmove with
    | passed _ hevents => exact confined_answered hevents
    | proposed _ _ _ => exact one trivial
    | returned _ _ _ hevents =>
      exact List.forall_mem_cons.mpr ⟨trivial, confined_answered hevents⟩
  | readStep _ _ hmove =>
    refine ⟨_, rfl, ?_⟩
    cases hmove <;> first | exact none | exact one trivial
  | _ => exact ⟨[], rfl, none⟩

end Invariant

section Results

variable {m : Membership} {hash : Bytes → Nat} {side : List NodeId} {s s' : Cluster}

theorem divided_run (hr : Run m hash anyStep s)
    (hminor : m.sizeOf side < Quorum.majority m.ids.length)
    (hr' : Runs.Run (step m) s (cutOff side s.rpcs.length) s') :
    Divided m side s s' ∧
      ∃ evs, s'.history = s.history ++ evs ∧ ∀ ev ∈ evs, Confined side s ev := by
  obtain ⟨h₀, I₀, S₀⟩ := run_simulated hr
  induction hr' with
  | init =>
    exact ⟨divided_start I₀ S₀, [], (List.append_nil _).symm, fun _ hev => by cases hev⟩
  | step hrun ha hs ih =>
    obtain ⟨D, evs, hhist, hevs⟩ := ih
    have hreach := hr.trans (hrun.mono fun _ _ _ => trivial)
    obtain ⟨h, I, S⟩ := run_simulated hreach
    have mv := step_move hs
    obtain ⟨h', _, S'⟩ := sim_move I S mv
    have D' := divided_move D I₀ S₀ S mv ha
    obtain ⟨new, hnew, hconfined⟩ := D.events_move D' S' hminor mv
    refine ⟨D', evs ++ new, ?_, fun ev hev => ?_⟩
    · rw [hnew, hhist, List.append_assoc]
    · rcases List.mem_append.mp hev with hold | hev
      · exact hevs ev hold
      · exact hconfined ev hev

/-- **A minority that is cut off makes no progress**: after the cut a node of the small side is
elected only in an election that it had begun before, and as a leader it commits only what its log
held at the cut. -/
theorem minority_makes_no_progress (hr : Run m hash anyStep s)
    (hminor : m.sizeOf side < Quorum.majority m.ids.length)
    (hr' : Runs.Run (step m) s (cutOff side s.rpcs.length) s') {i : Nat} {n : NodeId}
    (hi : s.history.length ≤ i) (hn : n ∈ side) :
    (∀ T L, s'.history[i]? = some (.becameLeader n T L) →
      ∃ e, (s.servers n).election = some e ∧ e.req.term = T) ∧
    ∀ T N L, s'.history[i]? = some (.advanced n T N L) →
      N ≤ (s.servers n).raft.log.entries.length := by
  obtain ⟨_, evs, hhist, hevs⟩ := divided_run hr hminor hr'
  rw [hhist, List.getElem?_append_right hi]
  exact ⟨fun T L hev => hevs _ (List.mem_of_getElem? hev) hn,
    fun T N L hev => hevs _ (List.mem_of_getElem? hev) hn⟩

/-- The first entry of node 1 still arrives and is committed; what it appends later reaches no
one. -/
def lateAck : List Action :=
  [.deliver 2, .act 1 (.replicateReply 2), .act 1 (.writeStep 0 false)] ++ startSet 1 [98] [50] ++
    [.act 1 (.replicate 2)]

/-- Node 1 leads term 1 and is cut off while its first entry is on the way to node 2. -/
theorem minority_makes_no_progress_lateAck :
    ∃ s s', Run Membership.trio (fun _ => 0) anyStep s ∧
      Runs.Run (step Membership.trio) s (cutOff [1] s.rpcs.length) s' ∧
      s'.history[2]? = some (.advanced 1 1 1 [firstEntry]) ∧
      (s'.servers 1).raft.log.entries.length = 2 ∧
      ∀ T N L, s'.history[2]? = some (.advanced 1 T N L) →
        N ≤ (s.servers 1).raft.log.entries.length := by
  obtain ⟨s, hr, hs⟩ : ∃ s, Run Membership.trio (fun _ => 0) anyStep s ∧
      decide (s.history.length ≤ 2 ∧
        (Runs.exec (step Membership.trio) (cutOff [1] s.rpcs.length) s lateAck).any (fun s' =>
          decide (s'.history[2]? = some (Event.advanced 1 1 1 [firstEntry]) ∧
            (s'.servers 1).raft.log.entries.length = 2)) = true) = true :=
    exists_run (electFirst ++ startSet 1 [97] [49] ++ [.act 1 (.replicate 2)]) (by decide +kernel)
  obtain ⟨hlen, hany⟩ := of_decide_eq_true hs
  obtain ⟨s', hexec, hs'⟩ := Runs.exists_of_any hany
  obtain ⟨hev, hlog⟩ := of_decide_eq_true hs'
  have hr' := Runs.Run.of_exec _ .init hexec
  exact ⟨s, s', hr, hr', hev, hlog,
    (minority_makes_no_progress hr (by decide) hr' hlen List.mem_cons_self).2⟩

end Results

end NeuralKV
