import NeuralKV.Raft.Moves
import NeuralKV.Raft.NodeSpec

/-!
# The cluster simulates abstract log replication: the relation

`Sim m h s` ties a state `s` of the cluster to a history `h` of the abstract protocol of
`NeuralKV.Lib.Consensus`:

* `NodeSim` — a node's term, vote, role and log are those of the history, its files agree with
  its memory, and a leader's `match_index_` counts only acknowledged entries;
* `RpcSim`, `ReplySim` — every request on the wire states facts of the history, every positive
  reply a vote or an acknowledgement in it;
* `ElectionSim`, `ReadSim` — the votes and acks a thread has counted come from pairwise distinct
  members;
* `HistSim` — the events tell the history's elections and commitments.

All of these are stable when the history is extended, so a step only has to re-establish the
part it touches (`Sim.update`).
-/

set_option autoImplicit false

namespace NeuralKV

open Consensus Quorum

/-- Histories of the abstract protocol over node ids and log entries. -/
abbrev Hist := History NodeId LogEntry

/-- The quorum system of a membership: its strict majorities. -/
def Membership.quorums (m : Membership) : QuorumSystem NodeId := majorities m.ids

/-- The invariant of the abstract protocol at the types of the cluster. -/
abbrev HInv (m : Membership) (h : Hist) : Prop := Inv m.quorums entryTerm h

/-- The moves of the abstract protocol at the types of the cluster. -/
abbrev HSteps (m : Membership) : Hist → Hist → Prop := Steps m.quorums entryTerm

/-! ## Nodes -/

/-- What a leader's bookkeeping stands for. -/
structure LeaderSim (m : Membership) (h : Hist) (n : NodeId) (r : RaftNode) : Prop where
  leads : h.leader r.currentTerm = some n
  keys : r.matchIndex.map (·.1) = (m.configOf n).otherPeers
  acked : ∀ p ∈ r.matchIndex, p.2 ≤ h.ack (p.1, r.currentTerm)
  next : ∀ id ∈ (m.configOf n).otherPeers,
    0 < r.nextIndex.valueAt id ∧ r.nextIndex.valueAt id ≤ r.log.entries.length + 1

structure NodeSim (m : Membership) (h : Hist) (n : NodeId) (r : RaftNode) : Prop where
  cur : h.cur n = r.currentTerm
  log : h.log n = r.log.entries
  contiguous : r.log.Contiguous
  persisted : RaftNode.loadPersistedState r.stateBin = ⟨r.currentTerm, r.votedFor⟩
  voted : r.votedFor ≠ 0 → ∃ F, h.vote (r.currentTerm, n) = some (r.votedFor, F)
  unvoted : r.votedFor = 0 → h.vote (r.currentTerm, n) = none
  candidate : r.state = .kCandidate →
    h.stood (r.currentTerm, n) = some r.log.entries ∧ h.leader r.currentTerm ≠ some n
  leader : r.state = .kLeader → LeaderSim m h n r
  acks_nodup : (r.lastAckTime.map (·.1)).Nodup
  acks_peers : ∀ p ∈ r.lastAckTime, p.1 ∈ (m.configOf n).otherPeers

theorem NodeSim.frame {m : Membership} {h h' : Hist} {n : NodeId} {r : RaftNode}
    (S : NodeSim m h n r) (x : Extends h h') (same : SameAt n h h') : NodeSim m h' n r where
  cur := same.cur.trans S.cur
  log := same.log.trans S.log
  contiguous := S.contiguous
  persisted := S.persisted
  voted hv := by rw [same.vote]; exact S.voted hv
  unvoted hv := by rw [same.vote]; exact S.unvoted hv
  candidate hc := by
    rw [same.stood, Ne, same.leads]
    exact S.candidate hc
  leader hl :=
    let L := S.leader hl
    { L with
      leads := x.leader _ _ L.leads
      acked := fun p hp => Nat.le_trans (L.acked p hp) (x.ack _ _) }
  acks_nodup := S.acks_nodup
  acks_peers := S.acks_peers

/-- `NodeSim` reads only these fields of a node. -/
theorem NodeSim.congr {m : Membership} {h : Hist} {n : NodeId} {r r' : RaftNode}
    (S : NodeSim m h n r) (hs : r'.state = r.state) (hc : r'.currentTerm = r.currentTerm)
    (hv : r'.votedFor = r.votedFor) (hl : r'.log = r.log) (hb : r'.stateBin = r.stateBin)
    (hm : r'.matchIndex = r.matchIndex) (hn : r'.nextIndex = r.nextIndex)
    (hk : r'.lastAckTime = r.lastAckTime) : NodeSim m h n r' where
  cur := by rw [hc]; exact S.cur
  log := by rw [hl]; exact S.log
  contiguous := by rw [hl]; exact S.contiguous
  persisted := by rw [hb, hc, hv]; exact S.persisted
  voted := by rw [hv, hc]; exact S.voted
  unvoted := by rw [hv, hc]; exact S.unvoted
  candidate := by rw [hs, hc, hl]; exact S.candidate
  leader := by
    intro hst
    rw [hs] at hst
    have L := S.leader hst
    exact ⟨by rw [hc]; exact L.leads, by rw [hm]; exact L.keys, by rw [hm, hc]; exact L.acked,
      by rw [hn, hl]; exact L.next⟩
  acks_nodup := by rw [hk]; exact S.acks_nodup
  acks_peers := by rw [hk]; exact S.acks_peers

/-! ## Messages -/

/-- A vote request tells the log its candidate stood with. -/
def VoteReqSim (h : Hist) (caller : NodeId) (req : RequestVoteRequest) : Prop :=
  req.candidateId = caller ∧ ∃ L, h.stood (req.term, caller) = some L ∧
    req.lastLogIndex = L.length ∧ req.lastLogTerm = lastTerm entryTerm L

/-- An append request carries a piece of the book of its term, right after `prev`. -/
structure AppendReqSim (h : Hist) (caller callee : NodeId) (req : AppendEntriesRequest) :
    Prop where
  leads : h.leader req.term = some caller
  ne : caller ≠ callee
  prev_le : req.prevLogIndex ≤ (h.book req.term).length
  prev_term : 0 < req.prevLogIndex →
    ∃ e, (h.book req.term)[req.prevLogIndex - 1]? = some e ∧ e.term = req.prevLogTerm
  entries : ((h.book req.term).drop req.prevLogIndex).take req.entries.length = req.entries

structure RpcSim (m : Membership) (h : Hist) (r : Rpc) : Prop where
  caller : r.caller ∈ m.ids
  callee : r.callee ∈ m.ids
  vote : ∀ req, r.req = .requestVote req → VoteReqSim h r.caller req
  append : ∀ req, r.req = .appendEntries req → AppendReqSim h r.caller r.callee req

theorem VoteReqSim.frame {h h' : Hist} {caller : NodeId} {req : RequestVoteRequest}
    (S : VoteReqSim h caller req) (x : Extends h h') : VoteReqSim h' caller req := by
  obtain ⟨hid, L, hL, hi, ht⟩ := S
  exact ⟨hid, L, x.stood _ _ _ hL, hi, ht⟩

/-- What an append request acknowledges: the book up to its last entry. -/
theorem AppendReqSim.take_eq {h : Hist} {caller callee : NodeId} {req : AppendEntriesRequest}
    (S : AppendReqSim h caller callee req) :
    req.prevLogIndex + req.entries.length ≤ (h.book req.term).length := by
  have hlen := congrArg List.length S.entries
  rw [List.length_take, List.length_drop] at hlen
  have := S.prev_le
  omega

theorem AppendReqSim.frame {h h' : Hist} {caller callee : NodeId} {req : AppendEntriesRequest}
    (S : AppendReqSim h caller callee req) (x : Extends h h') :
    AppendReqSim h' caller callee req := by
  have hle := S.take_eq
  refine ⟨x.leader _ _ S.leads, S.ne, ?_, ?_, ?_⟩
  · exact Nat.le_trans S.prev_le (x.book _).length_le
  · intro h0
    obtain ⟨e, he, ht⟩ := S.prev_term h0
    exact ⟨e, getElem?_of_isPrefix (x.book _) he, ht⟩
  · obtain ⟨t, ht⟩ := x.book req.term
    rw [← ht, List.drop_append_of_le_length S.prev_le, List.take_append_of_le_length]
    · exact S.entries
    · rw [List.length_drop]; omega

theorem RpcSim.frame {m : Membership} {h h' : Hist} {r : Rpc} (S : RpcSim m h r)
    (x : Extends h h') : RpcSim m h' r :=
  ⟨S.caller, S.callee, fun req hr => (S.vote req hr).frame x, fun req hr => (S.append req hr).frame x⟩

/-- A leader of term `U` is among the first `k` events. -/
def LedBefore (hist : List Event) (k U : Nat) : Prop :=
  ∃ n L, Event.becameLeader n U L ∈ hist.take k

/-- `p` is not an elector of any later term that had a leader within the first `k` events. -/
def Unsworn (h : Hist) (hist : List Event) (k T : Nat) (p : NodeId) : Prop :=
  ∀ U, T < U → LedBefore hist k U → p ∉ h.electors U

/-- A granted vote is in the history; a successful append is acknowledged in it and shows that
the callee had not yet taken part in the election of a later leader. -/
structure ReplySim (h : Hist) (hist : List Event) (r : Rpc) (resp : Response) : Prop where
  vote : ∀ req a, r.req = .requestVote req → resp = .requestVote a → a.voteGranted = true →
    ∃ F, h.vote (req.term, r.callee) = some (r.caller, F)
  append : ∀ req a, r.req = .appendEntries req → resp = .appendEntries a → a.success = true →
    req.prevLogIndex + req.entries.length ≤ h.ack (r.callee, req.term) ∧
      Unsworn h hist r.sentAt req.term r.callee

/-! ## Threads -/

/-- The members a thread has counted, none of which it will count again. -/
structure Counted (m : Membership) (votes : Nat) (todo : List NodeId) (P : NodeId → Prop)
    (vs : List NodeId) : Prop where
  nodup : vs.Nodup
  members : vs ⊆ m.ids
  length : vs.length = votes
  fresh : ∀ v ∈ vs, v ∉ todo
  holds : ∀ v ∈ vs, P v

structure ElectionSim (m : Membership) (h : Hist) (rpcs : List Rpc) (n : NodeId) (e : Election) :
    Prop where
  req : VoteReqSim h n e.req
  todo_nodup : e.todo.Nodup
  todo_members : ∀ p ∈ e.todo, p ∈ m.ids ∧ p ≠ n
  counted : ∃ vs, Counted m e.votes e.todo
      (fun v => ∃ F, h.vote (e.req.term, v) = some (n, F)) vs ∧
    ∀ rpc, e.pending = some rpc → ∃ r, rpcs[rpc]? = some r ∧ r.caller = n ∧
      r.req = .requestVote e.req ∧ r.callee ∉ vs ∧ r.callee ∉ e.todo

/-- The state of a read-confirmation round. -/
structure RoundSim (m : Membership) (h : Hist) (rpcs : List Rpc) (hist : List Event) (n : NodeId)
    (term start acks : Nat) (todo : List NodeId) (pending : Option (NodeId × Nat)) : Prop where
  start_le : start ≤ hist.length
  todo_nodup : todo.Nodup
  todo_members : ∀ p ∈ todo, p ∈ m.ids ∧ p ≠ n
  counted : ∃ vs, Counted m acks todo (Unsworn h hist start term) vs ∧
    ∀ p rpc, pending = some (p, rpc) → p ∈ (m.configOf n).otherPeers ∧ p ∉ vs ∧ p ∉ todo ∧
      ∃ r req, rpcs[rpc]? = some r ∧ r.callee = p ∧ r.req = .appendEntries req ∧ req.term = term ∧
        start ≤ r.sentAt

def ReadSim (m : Membership) (h : Hist) (rpcs : List Rpc) (hist : List Event) (n : NodeId)
    (rd : Read) : Prop :=
  ∀ term start acks todo pending, rd.stage = .round term start acks todo pending →
    RoundSim m h rpcs hist n term start acks todo pending

/-- An entry that `Propose` has appended on `n` stands in the book of its term. -/
def ProposedBy (h : Hist) (n : NodeId) (e : LogEntry) : Prop :=
  h.leader e.term = some n ∧ 0 < e.index ∧ (h.book e.term)[e.index - 1]? = some e

/-! ## Events -/

/-- The term of an election event. -/
def Event.ledTerm : Event → Option Nat
  | .becameLeader _ term _ => some term
  | _ => none

/-- What an event says about the history. -/
def EventSim (m : Membership) (h : Hist) (hist : List Event) : Event → Prop
  | .becameLeader n T L => h.leader T = some n ∧ h.stood (T, n) = some L
  | .advanced n T N L =>
    h.leader T = some n ∧ Committed m.quorums entryTerm h T N ∧ L <+: h.book T ∧ N ≤ L.length
  | .proposeReturned n e _ _ => ProposedBy h n e
  | .confirmed _ T start true => start ≤ hist.length ∧ ∀ U, LedBefore hist start U → U ≤ T
  | _ => True

/-- Every event is true of the history, every leader has its one event, and commits only after
it. -/
structure HistSim (m : Membership) (h : Hist) (hist : List Event) : Prop where
  events : ∀ ev ∈ hist, EventSim m h hist ev
  recorded : ∀ n T, h.leader T = some n → ∃ L, Event.becameLeader n T L ∈ hist
  once : (hist.filterMap Event.ledTerm).Nodup
  led_first : ∀ k n T N L, Event.advanced n T N L ∈ hist.take k → LedBefore hist k T

/-- **The simulation relation.** -/
structure Sim (m : Membership) (h : Hist) (s : Cluster) : Prop where
  node : ∀ n, NodeSim m h n (s.servers n).raft
  election : ∀ n e, (s.servers n).election = some e → ElectionSim m h s.rpcs n e
  reads : ∀ n, ∀ rd ∈ (s.servers n).reads, ReadSim m h s.rpcs s.history n rd
  writes : ∀ n, ∀ w ∈ (s.servers n).writes, ∀ e, w.stage = .waiting e → ProposedBy h n e
  replications : ∀ n, ∀ rpc ∈ (s.servers n).replications, ∃ r, s.rpcs[rpc]? = some r ∧
    r.caller = n ∧ r.callee ∈ (m.configOf n).otherPeers
  rpcs : ∀ r ∈ s.rpcs, RpcSim m h r ∧ r.sentAt ≤ s.history.length
  replies : ∀ p ∈ s.replies, ∃ r, s.rpcs[p.1]? = some r ∧ ReplySim h s.history r p.2
  history : HistSim m h s.history
  books : ∀ T, Numbered (h.book T)

/-! ## Stability -/

theorem take_append_events {hist evs : List Event} {k : Nat} (hk : k ≤ hist.length) :
    (hist ++ evs).take k = hist.take k := List.take_append_of_le_length hk

/-- The electors of a recorded election never change. -/
theorem Unsworn.frame {m : Membership} {h h' : Hist} {hist evs : List Event} {k T : Nat}
    {p : NodeId} (S : Unsworn h hist k T p) (H : HistSim m h hist) (x : Extends h h')
    (hk : k ≤ hist.length) : Unsworn h' (hist ++ evs) k T p := by
  intro U hU hled
  obtain ⟨n, L, hmem⟩ := hled
  rw [take_append_events hk] at hmem
  rw [x.electors U n (H.events _ (List.mem_of_mem_take hmem)).1]
  exact S U hU ⟨n, L, hmem⟩

theorem Unsworn.mono {h : Hist} {hist : List Event} {k k' T : Nat} {p : NodeId}
    (S : Unsworn h hist k' T p) (hk : k ≤ k') : Unsworn h hist k T p := by
  intro U hU hled
  obtain ⟨n, L, hmem⟩ := hled
  exact S U hU ⟨n, L, (List.take_prefix_take_left hk).subset hmem⟩

theorem ReplySim.frame {m : Membership} {h h' : Hist} {hist evs : List Event} {r : Rpc}
    {resp : Response} (S : ReplySim h hist r resp) (H : HistSim m h hist) (x : Extends h h')
    (hk : r.sentAt ≤ hist.length) : ReplySim h' (hist ++ evs) r resp := by
  constructor
  · intro req a hr ha hg
    obtain ⟨F, hF⟩ := S.vote req a hr ha hg
    exact ⟨F, x.vote _ _ _ hF⟩
  · intro req a hr ha hg
    obtain ⟨h₁, h₂⟩ := S.append req a hr ha hg
    exact ⟨Nat.le_trans h₁ (x.ack _ _), h₂.frame H x hk⟩

theorem getElem?_append_rpcs {rpcs sent : List Rpc} {i : Nat} {r : Rpc} (h : rpcs[i]? = some r) :
    (rpcs ++ sent)[i]? = some r := by
  rw [List.getElem?_append_left (List.getElem?_eq_some_iff.mp h).1]
  exact h

theorem Counted.imp {m : Membership} {votes : Nat} {todo : List NodeId} {P Q : NodeId → Prop}
    {vs : List NodeId} (C : Counted m votes todo P vs) (h : ∀ v, P v → Q v) :
    Counted m votes todo Q vs :=
  { C with holds := fun v hv => h v (C.holds v hv) }

theorem ElectionSim.frame {m : Membership} {h h' : Hist} {rpcs sent : List Rpc} {n : NodeId}
    {e : Election} (S : ElectionSim m h rpcs n e) (x : Extends h h') :
    ElectionSim m h' (rpcs ++ sent) n e := by
  obtain ⟨vs, C, hp⟩ := S.counted
  refine ⟨S.req.frame x, S.todo_nodup, S.todo_members, vs, ?_, ?_⟩
  · exact C.imp fun v ⟨F, hF⟩ => ⟨F, x.vote _ _ _ hF⟩
  · intro rpc hpend
    obtain ⟨r, hr, h₁, h₂, h₃, h₄⟩ := hp rpc hpend
    exact ⟨r, getElem?_append_rpcs hr, h₁, h₂, h₃, h₄⟩

theorem RoundSim.frame {m : Membership} {h h' : Hist} {rpcs sent : List Rpc}
    {hist evs : List Event} {n : NodeId} {term start acks : Nat} {todo : List NodeId}
    {pending : Option (NodeId × Nat)}
    (S : RoundSim m h rpcs hist n term start acks todo pending) (H : HistSim m h hist)
    (x : Extends h h') :
    RoundSim m h' (rpcs ++ sent) (hist ++ evs) n term start acks todo pending := by
  obtain ⟨vs, C, hp⟩ := S.counted
  refine ⟨?_, S.todo_nodup, S.todo_members, vs, ?_, ?_⟩
  · rw [List.length_append]
    have := S.start_le
    omega
  · exact C.imp fun v hv => hv.frame H x S.start_le
  · intro p rpc hpend
    obtain ⟨h₀, h₁, h₂, r, req, hr, h₃⟩ := hp p rpc hpend
    exact ⟨h₀, h₁, h₂, r, req, getElem?_append_rpcs hr, h₃⟩

theorem ReadSim.frame {m : Membership} {h h' : Hist} {rpcs sent : List Rpc}
    {hist evs : List Event} {n : NodeId} {rd : Read} (S : ReadSim m h rpcs hist n rd)
    (H : HistSim m h hist) (x : Extends h h') :
    ReadSim m h' (rpcs ++ sent) (hist ++ evs) n rd :=
  fun term start acks todo pending hst => (S term start acks todo pending hst).frame H x

theorem LedBefore.of_append {hist evs : List Event} {k U : Nat} (hk : k ≤ hist.length)
    (h : LedBefore (hist ++ evs) k U) : LedBefore hist k U := by
  unfold LedBefore at h
  rw [take_append_events hk] at h
  exact h

theorem LedBefore.append {hist evs : List Event} {k U : Nat} (h : LedBefore hist k U) :
    LedBefore (hist ++ evs) k U := by
  obtain ⟨n, L, hmem⟩ := h
  exact ⟨n, L, ((List.prefix_append hist evs).take k).subset hmem⟩

theorem ProposedBy.frame {h h' : Hist} {n : NodeId} {e : LogEntry} (P : ProposedBy h n e)
    (x : Extends h h') : ProposedBy h' n e :=
  ⟨x.leader _ _ P.1, P.2.1, getElem?_of_isPrefix (x.book _) P.2.2⟩

theorem EventSim.frame {m : Membership} {h h' : Hist} {hist evs : List Event} {ev : Event}
    (S : EventSim m h hist ev) (x : Extends h h') : EventSim m h' (hist ++ evs) ev := by
  cases ev with
  | becameLeader n T L => exact ⟨x.leader _ _ S.1, x.stood _ _ _ S.2⟩
  | advanced n T N L =>
    obtain ⟨h₁, h₂, h₃, h₄⟩ := S
    exact ⟨x.leader _ _ h₁, h₂.mono x, h₃.trans (x.book _), h₄⟩
  | proposeReturned n e status L => exact ProposedBy.frame S x
  | confirmed n T start full =>
    cases full with
    | false => trivial
    | true =>
      refine ⟨?_, fun U hU => S.2 U (hU.of_append S.1)⟩
      rw [List.length_append]
      exact Nat.le_add_right_of_le S.1
  | _ => trivial

/-- An event among the first `k` is an old one, or a new one behind all the old ones. -/
theorem mem_take_append {hist evs : List Event} {k : Nat} {ev : Event}
    (h : ev ∈ (hist ++ evs).take k) :
    ev ∈ hist.take k ∨ (ev ∈ evs ∧ (hist ++ evs).take hist.length <+: (hist ++ evs).take k) := by
  rw [List.take_append] at h
  rcases List.mem_append.mp h with h₁ | h₁
  · exact Or.inl h₁
  · refine Or.inr ⟨List.mem_of_mem_take h₁, List.take_prefix_take_left ?_⟩
    by_contra hk
    rw [Nat.sub_eq_zero_of_le (by omega)] at h₁
    cases h₁

/-- New events that are no elections. -/
theorem HistSim.frame {m : Membership} {h h' : Hist} {hist evs : List Event} (S : HistSim m h hist)
    (x : Extends h h') (hlead : h'.leader = h.leader)
    (hnew : ∀ ev ∈ evs, EventSim m h' (hist ++ evs) ev ∧ ev.ledTerm = none) :
    HistSim m h' (hist ++ evs) := by
  refine ⟨?_, ?_, ?_, ?_⟩
  · intro ev hev
    rcases List.mem_append.mp hev with h₁ | h₁
    · exact (S.events ev h₁).frame x
    · exact (hnew ev h₁).1
  · intro n T hl
    rw [hlead] at hl
    obtain ⟨L, hL⟩ := S.recorded n T hl
    exact ⟨L, List.mem_append_left _ hL⟩
  · have hnone : evs.filterMap Event.ledTerm = [] :=
      List.filterMap_eq_nil_iff.mpr fun ev hev => (hnew ev hev).2
    rw [List.filterMap_append, hnone, List.append_nil]
    exact S.once
  · intro k n T N L hmem
    rcases mem_take_append hmem with h₁ | ⟨h₁, hpre⟩
    · exact (S.led_first k n T N L h₁).append
    · -- the leader that commits was elected before
      have hl := (hnew _ h₁).1.1
      rw [hlead] at hl
      obtain ⟨L', hL'⟩ := S.recorded n T hl
      refine ⟨n, L', hpre.subset ?_⟩
      rw [take_append_events (Nat.le_refl _), List.take_length]
      exact hL'

/-- **Only what a step touches has to be shown again.** -/
theorem Sim.update {m : Membership} {h h' : Hist} {s : Cluster} {n : NodeId} {srv : Server}
    {send : Option (NodeId × Request)} {events : List Event} (S : Sim m h s) (x : Extends h h')
    (same : ∀ k, k ≠ n → SameAt k h h') (books : ∀ T, Numbered (h'.book T))
    (node : NodeSim m h' n srv.raft)
    (election : ∀ e, srv.election = some e →
      ElectionSim m h' (s.update n srv send events).rpcs n e)
    (reads : ∀ rd ∈ srv.reads,
      ReadSim m h' (s.update n srv send events).rpcs (s.history ++ events) n rd)
    (writes : ∀ w ∈ srv.writes, ∀ e, w.stage = .waiting e → ProposedBy h' n e)
    (replications : ∀ rpc ∈ srv.replications, ∃ r,
      (s.update n srv send events).rpcs[rpc]? = some r ∧ r.caller = n ∧
        r.callee ∈ (m.configOf n).otherPeers)
    (sent : ∀ p, send = some p → RpcSim m h' ⟨n, p.1, p.2, s.history.length⟩)
    (history : HistSim m h' (s.history ++ events)) :
    Sim m h' (s.update n srv send events) := by
  have hlen : s.history.length ≤ (s.history ++ events).length := by
    rw [List.length_append]; omega
  refine ⟨?_, ?_, ?_, ?_, ?_, ?_, ?_, history, books⟩
  · exact Cluster.forall_update (P := fun k p => NodeSim m h' k p.raft)
      node (fun k hk => (S.node k).frame x (same k hk))
  · exact Cluster.forall_update
      (P := fun k p => ∀ e, p.election = some e →
        ElectionSim m h' (s.update n srv send events).rpcs k e)
      election (fun k _ e he => (S.election k e he).frame x)
  · exact Cluster.forall_update
      (P := fun k p => ∀ rd ∈ p.reads,
        ReadSim m h' (s.update n srv send events).rpcs (s.history ++ events) k rd)
      reads (fun k _ rd hrd => (S.reads k rd hrd).frame S.history x)
  · exact Cluster.forall_update
      (P := fun k p => ∀ w ∈ p.writes, ∀ e, w.stage = .waiting e → ProposedBy h' k e)
      writes (fun k _ w hw e he => (S.writes k w hw e he).frame x)
  · refine Cluster.forall_update
      (P := fun k p => ∀ rpc ∈ p.replications, ∃ r,
        (s.update n srv send events).rpcs[rpc]? = some r ∧ r.caller = k ∧
          r.callee ∈ (m.configOf k).otherPeers)
      replications (fun k _ rpc hrpc => ?_)
    obtain ⟨r, hr, h₁⟩ := S.replications k rpc hrpc
    exact ⟨r, getElem?_append_rpcs hr, h₁⟩
  · intro r hr
    rcases List.mem_append.mp hr with h₁ | h₁
    · exact ⟨(S.rpcs r h₁).1.frame x, Nat.le_trans (S.rpcs r h₁).2 hlen⟩
    · cases send with
      | none => cases h₁
      | some p =>
        obtain rfl := List.mem_singleton.mp h₁
        exact ⟨sent p rfl, hlen⟩
  · intro p hp
    obtain ⟨r, hr, h₁⟩ := S.replies p hp
    exact ⟨r, getElem?_append_rpcs hr,
      h₁.frame S.history x (S.rpcs r (List.mem_of_getElem? hr)).2⟩

end NeuralKV
