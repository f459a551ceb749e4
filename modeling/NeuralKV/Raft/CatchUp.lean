import NeuralKV.Raft.FollowerAppend
import NeuralKV.Server.Rpc

/-!
# Bringing one follower up to date

A leader and one follower with nothing between them: `Contact.round` is one call of
`ReplicateToPeer` whose RPC is delivered and answered.  `round_over_wire` shows that this is what
the frames do as long as the request fits into one.

* `Facing.refused`, `Facing.accepted` — the two outcomes of a round.  The request starts behind
  `next_index_ - 1`; it is accepted exactly if the two logs meet there.
* `catchUp_converges` — **the backtracking ends** after at most one round per entry and one more,
  and then the follower has the leader's log, and more only if that continues it.
* `lag_clears_iff` — `replication_lag_entries` is computed from `match_index_`, which only a request
  with entries moves.  **It reads 0 after every successful round exactly if the follower did not
  hold the leader's last entry when the leader was elected** (or the log was empty, or the follower
  was already in a later term).
-/

set_option autoImplicit false

namespace NeuralKV

open Consensus RaftNode

/-- A leader and a follower that nobody else talks to. -/
structure Contact where
  leader : RaftNode
  follower : RaftNode

namespace Contact

/-- One `ReplicateToPeer` call that gets its answer at time `now`, with the request and the reply;
`none` when the node does not lead. -/
def round (config : ClusterConfig) (peer : NodeId) (now : Nat) (c : Contact) :
    Contact × Option (AppendEntriesRequest × AppendEntriesResponse) :=
  match c.leader.replicateRequest config peer with
  | none => (c, none)
  | some req =>
    (⟨c.leader.replicateReply req.term req.entries peer (c.follower.handleAppendEntries req).2 now,
        (c.follower.handleAppendEntries req).1⟩,
      some (req, (c.follower.handleAppendEntries req).2))

/-- `k` rounds; round `i` gets its answer at time `clock i`. -/
def rounds (config : ClusterConfig) (peer : NodeId) (clock : Nat → Nat) (c : Contact) :
    Nat → Contact
  | 0 => c
  | k + 1 => ((rounds config peer clock c k).round config peer (clock k)).1

/-- The request and the reply of round `k`. -/
def exchange (config : ClusterConfig) (peer : NodeId) (clock : Nat → Nat) (c : Contact) (k : Nat) :
    Option (AppendEntriesRequest × AppendEntriesResponse) :=
  ((c.rounds config peer clock k).round config peer (clock k)).2

/-- **On the wire**: the RPC of a round carries the follower to its next state and brings the reply
back, if its request fits into a frame. -/
theorem round_over_wire {config : ClusterConfig} {peer : NodeId} {c : Contact}
    {handle : Option RaftNode → Protocol.ClientRequest →
      Option RaftNode × Protocol.ClientResponse} {req : AppendEntriesRequest}
    {resp : AppendEntriesResponse} (now : Nat)
    (hround : (c.round config peer now).2 = some (req, resp)) (hfits : req.Fits)
    (hsize : 13 + (encodeAppendEntriesRequest req).length ≤ Protocol.kMaxPayloadSize)
    (hnode : c.follower.currentTerm < 256 ^ 8) :
    appendEntriesRpc (raftHandler handle) (some c.follower) req =
      (some resp, some (c.round config peer now).1.follower) := by
  rw [appendEntriesRpc_eq hfits hsize hnode]
  unfold round at hround ⊢
  cases hreq : c.leader.replicateRequest config peer with
  | none =>
    rw [hreq] at hround
    cases hround
  | some req' =>
    rw [hreq] at hround
    cases hround
    rfl

/-! ## One round -/

/-- Both logs have an entry of the same term at index `i`, or `i` is before the first. -/
def Meets (F L : List LogEntry) (i : Nat) : Prop :=
  i = 0 ∨ ∃ a b, F[i - 1]? = some a ∧ L[i - 1]? = some b ∧ a.term = b.term

/-- The check on `prev_log_index`, for a request that is a piece of `L`. -/
theorem hasPrev_iff_meets {L : List LogEntry} {node : RaftNode} {req : AppendEntriesRequest}
    (hcut : CutFrom L req) :
    node.HasPrev req ↔ Meets node.log.entries L req.prevLogIndex := by
  unfold HasPrev Meets
  by_cases h0 : req.prevLogIndex = 0
  · simp [h0]
  · obtain ⟨b, hb, hbt⟩ := hcut.prev.resolve_left h0
    simp only [h0, false_or]
    constructor
    · rintro ⟨a, ha, hat⟩
      exact ⟨a, b, ha, hb, hat.trans hbt.symm⟩
    · rintro ⟨a, b', ha, hb', hab⟩
      rw [hb] at hb'
      cases hb'
      exact ⟨a, ha, hab.trans hbt⟩

/-- The leader of term `T` has the log `L` and will start its next request to `peer` at `x`; the
follower has the log `F` and is in no later term. -/
structure Facing (peer : NodeId) (T : Nat) (L F : Log) (x : Nat) (c : Contact) : Prop where
  leads : c.leader.state = .kLeader
  term : c.leader.currentTerm = T
  log : c.leader.log = L
  next : c.leader.nextIndex.valueAt peer = x
  follower : c.follower.log = F
  follower_term : c.follower.currentTerm ≤ T

/-- The request of a round. -/
structure Carries (T : Nat) (L : Log) (x : Nat) (req : AppendEntriesRequest) : Prop where
  term : req.term = T
  prev : req.prevLogIndex = x - 1
  entries : req.entries = L.entries.drop (x - 1)
  cut : CutFrom L.entries req

section Round

variable {config : ClusterConfig} {peer : NodeId} {T x : Nat} {L F : Log} {c : Contact}

theorem Facing.request (h : Facing peer T L F x c) (config : ClusterConfig) (hL : L.Contiguous)
    (hpos : 0 < x) (hle : x ≤ L.entries.length + 1) :
    ∃ req, c.leader.replicateRequest config peer = some req ∧ Carries T L x req := by
  have hreq : c.leader.replicateRequest config peer =
      some (c.leader.appendEntriesRequest config c.leader.currentTerm peer
        (c.leader.log.entriesFrom (c.leader.nextIndex.valueAt peer))) := by
    unfold replicateRequest
    rw [if_neg (by rw [h.leads]; simp)]
  have hentries : c.leader.log.entriesFrom (c.leader.nextIndex.valueAt peer) =
      L.entries.drop (x - 1) := by
    rw [h.next, h.log]
    unfold Log.entriesFrom
    rw [if_neg (by omega)]
  rw [hentries] at hreq
  refine ⟨_, hreq, h.term, by simp only [appendEntriesRequest, h.next], rfl, ?_, ?_⟩
  · simp only [appendEntriesRequest, h.next, h.log]
    by_cases h0 : x - 1 = 0
    · exact Or.inl h0
    · have hlt : x - 1 - 1 < L.entries.length := by omega
      refine Or.inr ⟨_, List.getElem?_eq_getElem hlt, ?_⟩
      rw [hL.get_eq (by omega), List.getElem?_eq_getElem hlt]
      rfl
  · simp only [appendEntriesRequest, h.next]
    exact List.take_length

/-- **A round in which the logs do not meet**: the follower keeps its log, and the leader starts one
index earlier. -/
theorem Facing.refused (h : Facing peer T L F x c) (config : ClusterConfig) (now : Nat)
    (hL : L.Contiguous) (hF : F.Contiguous) (hpos : 0 < x) (hle : x ≤ L.entries.length + 1)
    (hmiss : ¬ Meets F.entries L.entries (x - 1)) :
    (∃ req resp, (c.round config peer now).2 = some (req, resp) ∧ resp.success = false) ∧
      1 < x ∧ Facing peer T L F (x - 1) (c.round config peer now).1 ∧
      (c.round config peer now).1.leader.matchIndex = c.leader.matchIndex := by
  obtain ⟨req, hreq, hc⟩ := h.request config hL hpos hle
  have hx : 1 < x := by
    by_contra h1
    exact hmiss (Or.inl (by omega))
  have hterm : c.follower.currentTerm ≤ req.term := by rw [hc.term]; exact h.follower_term
  have hprev : c.follower.prevMismatch req = true := by
    by_contra hno
    rw [Bool.not_eq_true, prevMismatch_eq_false_iff (by rw [h.follower]; exact hF),
      hasPrev_iff_meets hc.cut, hc.prev, h.follower] at hno
    exact hmiss hno
  have hhandle : c.follower.handleAppendEntries req =
      (c.follower.acceptLeader req, ⟨req.term, false⟩) := by
    rw [handleAppendEntries_of_le hterm, if_pos hprev]
  have hround : c.round config peer now =
      (⟨{ c.leader with
            nextIndex := c.leader.nextIndex.put peer (c.leader.nextIndex.valueAt peer - 1) },
          c.follower.acceptLeader req⟩, some (req, ⟨req.term, false⟩)) := by
    unfold round
    rw [hreq]
    simp only [hhandle]
    rw [replicateReply_refused h.leads (h.term.trans hc.term.symm) (Nat.le_refl _) rfl
      (by rw [h.next]; exact hx)]
  rw [hround]
  refine ⟨⟨_, _, rfl, rfl⟩, hx, ⟨h.leads, h.term, h.log, ?_, ?_, ?_⟩, rfl⟩
  · rw [PeerMap.valueAt_put_self, h.next]
  · exact ((c.follower.acceptLeader_fields req).1).trans h.follower
  · exact Nat.le_of_eq ((acceptLeader_term hterm).trans hc.term)

/-- What a positive reply to the whole rest of the log leaves in the record of the peer. -/
theorem recordAck_rest (r : RaftNode) (hL : L.Contiguous) (hpos : 0 < x)
    (hle : x ≤ L.entries.length + 1) {entries : List LogEntry}
    (hentries : entries = L.entries.drop (x - 1)) (hnext : r.nextIndex.valueAt peer = x)
    (now : Nat) :
    (r.recordAck entries peer now).nextIndex.valueAt peer = L.entries.length + 1 ∧
      (r.recordAck entries peer now).matchIndex.valueAt peer =
        if x ≤ L.entries.length then L.entries.length else r.matchIndex.valueAt peer := by
  unfold recordAck
  by_cases hx : x ≤ L.entries.length
  · have hlast : entries.getLast? = some (L.entries.get ⟨L.entries.length - 1, by omega⟩) := by
      rw [hentries, List.getLast?_drop, if_neg (by omega), List.getLast?_eq_getElem?,
        List.getElem?_eq_getElem (by omega)]
      rfl
    have hidx := hL.numbered (L.entries.length - 1) _ (List.getElem?_eq_getElem (by omega))
    rw [hlast, if_pos hx]
    simp only [PeerMap.valueAt_put_self, List.get_eq_getElem, hidx]
    omega
  · have hnone : entries.getLast? = none := by
      rw [hentries, List.drop_of_length_le (by omega)]
      rfl
    rw [hnone, if_neg hx]
    exact ⟨by rw [hnext]; omega, rfl⟩

/-- **A round in which the logs meet** takes the whole rest of the leader's log across. -/
theorem Facing.accepted (h : Facing peer T L F x c) (config : ClusterConfig) (now : Nat)
    (hL : L.Contiguous) (hF : F.Contiguous) (hpos : 0 < x) (hle : x ≤ L.entries.length + 1)
    (hmeet : Meets F.entries L.entries (x - 1)) :
    ∃ req resp, (c.round config peer now).2 = some (req, resp) ∧ resp.success = true ∧
      Carries T L x req ∧
      Facing peer T L (appendLoop F (x - 1) (L.entries.drop (x - 1))) (L.entries.length + 1)
        (c.round config peer now).1 ∧
      (c.round config peer now).1.leader.matchIndex.valueAt peer =
        if x ≤ L.entries.length then L.entries.length else c.leader.matchIndex.valueAt peer := by
  obtain ⟨req, hreq, hc⟩ := h.request config hL hpos hle
  have hterm : c.follower.currentTerm ≤ req.term := by rw [hc.term]; exact h.follower_term
  have hprev : c.follower.prevMismatch req = false := by
    rw [prevMismatch_eq_false_iff (by rw [h.follower]; exact hF), hasPrev_iff_meets hc.cut,
      hc.prev, h.follower]
    exact hmeet
  obtain ⟨hsucc, hlog, hfterm, _⟩ := handleAppendEntries_accepted hterm hprev
  have hresp : (c.follower.handleAppendEntries req).2 = ⟨req.term, true⟩ := by
    rw [handleAppendEntries_of_le hterm, if_neg (by rw [hprev]; simp)]
  have hround : c.round config peer now =
      (⟨(c.leader.recordAck req.entries peer now).advanceCommitIndex,
          (c.follower.handleAppendEntries req).1⟩, some (req, ⟨req.term, true⟩)) := by
    unfold round
    rw [hreq]
    simp only [hresp]
    rw [replicateReply_accepted h.leads (h.term.trans hc.term.symm) (Nat.le_refl _) rfl]
  obtain ⟨_, hrterm, hrlog, hrstate, _⟩ := c.leader.recordAck_fields req.entries peer now
  obtain ⟨halog, haterm, hamatch, hanext, hastate⟩ :=
    (c.leader.recordAck req.entries peer now).advanceCommitIndex_fields
  obtain ⟨hnext, hmatch⟩ := recordAck_rest c.leader hL hpos hle hc.entries (h.next) now
  rw [hround]
  refine ⟨req, _, rfl, rfl, hc, ⟨?_, ?_, ?_, ?_, ?_, ?_⟩, ?_⟩
  · exact hastate.trans (hrstate.trans h.leads)
  · exact haterm.trans (hrterm.trans h.term)
  · exact halog.trans (hrlog.trans h.log)
  · show (c.leader.recordAck req.entries peer now).advanceCommitIndex.nextIndex.valueAt peer = _
    rw [hanext]
    exact hnext
  · rw [hc.prev, hc.entries, h.follower] at hlog
    exact hlog
  · exact Nat.le_of_eq (hfterm.trans hc.term)
  · show (c.leader.recordAck req.entries peer now).advanceCommitIndex.matchIndex.valueAt peer = _
    rw [hamatch]
    exact hmatch

end Round

/-! ## Catching up -/

section CatchUp

variable {config : ClusterConfig} {peer : NodeId} {clock : Nat → Nat} {T x : Nat} {L F : Log}
  {c : Contact}

theorem rounds_succ (k : Nat) :
    c.rounds config peer clock (k + 1) =
      ((c.round config peer (clock 0)).1).rounds config peer (fun i => clock (i + 1)) k := by
  induction k with
  | zero => rfl
  | succ k ih =>
    show ((c.rounds config peer clock (k + 1)).round config peer (clock (k + 1))).1 = _
    rw [ih]
    rfl

theorem exchange_succ (k : Nat) :
    c.exchange config peer clock (k + 1) =
      ((c.round config peer (clock 0)).1).exchange config peer (fun i => clock (i + 1)) k := by
  unfold exchange
  rw [rounds_succ]

/-- The follower's log after an accepted piece of a log it matches: its own, if that has the whole
leader's log, and the leader's otherwise. -/
theorem appendLoop_rest (hL : L.Contiguous) (hF : F.Contiguous) {i : Nat}
    (hi : i ≤ L.entries.length) (hmatch : LogsMatch entryTerm F.entries L.entries)
    (hmeet : Meets F.entries L.entries i) :
    Spliced entryTerm F.entries L.entries (appendLoop F i (L.entries.drop i)).entries ∧
      (appendLoop F i (L.entries.drop i)).Contiguous := by
  have hrest : (L.entries.drop i).take (L.entries.drop i).length = L.entries.drop i :=
    List.take_length
  have hall : L.entries.take (i + (L.entries.drop i).length) = L.entries := by
    rw [List.length_drop]
    exact List.take_of_length_le (by omega)
  have h := appendLoop_spliced hF hL.numbered hmatch (fun h0 => hmeet.resolve_left (by omega)) hrest
  rw [hall] at h
  exact h

/-- How far a follower is caught up: its log, when round `k` was the first to succeed. -/
structure CaughtUpAfter (config : ClusterConfig) (peer : NodeId) (clock : Nat → Nat) (c : Contact)
    (L F : Log) (k : Nat) : Prop where
  refused : ∀ i < k, ∃ req resp, c.exchange config peer clock i = some (req, resp) ∧
    resp.success = false
  accepted : ∃ req resp, c.exchange config peer clock k = some (req, resp) ∧
    resp.success = true ∧ req.prevLogIndex + req.entries.length = L.lastIndex
  agrees : L.entries <+: (c.rounds config peer clock (k + 1)).follower.log.entries
  kept : L.entries <+: F.entries →
    (c.rounds config peer clock (k + 1)).follower.log.entries = F.entries
  replaced : ¬ L.entries <+: F.entries →
    (c.rounds config peer clock (k + 1)).follower.log.entries = L.entries
  contiguous : (c.rounds config peer clock (k + 1)).follower.log.Contiguous

/-- The logs meet at once. -/
theorem Facing.caughtUp_now (h : Facing peer T L F (x + 1) c) (hL : L.Contiguous)
    (hF : F.Contiguous) (hmatch : LogsMatch entryTerm F.entries L.entries)
    (hle : x ≤ L.entries.length) (hmeet : Meets F.entries L.entries x) :
    CaughtUpAfter config peer clock c L F 0 := by
  obtain ⟨req, resp, hexch, hsucc, hcarries, hfacing, _⟩ :=
    h.accepted config (clock 0) hL hF (Nat.succ_pos x) (by omega) hmeet
  obtain ⟨hsplice, hcont⟩ := appendLoop_rest hL hF hle hmatch hmeet
  have hlog : (c.rounds config peer clock 1).follower.log =
      appendLoop F x (L.entries.drop x) := hfacing.follower
  refine ⟨fun i hi => by omega, ⟨req, resp, hexch, hsucc, ?_⟩, ?_, ?_, ?_, ?_⟩
  · rw [hcarries.prev, hcarries.entries, List.length_drop, hL.lastIndex_eq]
    omega
  · rw [hlog]
    exact hsplice.contains
  · rw [hlog]
    exact hsplice.of_isPrefix
  · rw [hlog]
    exact hsplice.of_not_isPrefix
  · rw [hlog]
    exact hcont

/-- A refused round in front. -/
theorem CaughtUpAfter.after_refused {k : Nat}
    (hrefused : ∃ req resp, (c.round config peer (clock 0)).2 = some (req, resp) ∧
      resp.success = false)
    (h : CaughtUpAfter config peer (fun i => clock (i + 1)) (c.round config peer (clock 0)).1
      L F k) :
    CaughtUpAfter config peer clock c L F (k + 1) := by
  obtain ⟨h₁, h₂, h₃, h₄, h₅, h₆⟩ := h
  rw [← rounds_succ] at h₃ h₄ h₅ h₆
  rw [← exchange_succ] at h₂
  refine ⟨fun i hi => ?_, h₂, h₃, h₄, h₅, h₆⟩
  cases i with
  | zero => exact hrefused
  | succ i =>
    rw [exchange_succ]
    exact h₁ i (by omega)

/-- **The first success comes within `next_index_` rounds.** -/
theorem Facing.catchUp (hL : L.Contiguous) (hF : F.Contiguous)
    (hmatch : LogsMatch entryTerm F.entries L.entries) :
    ∀ {x : Nat} {c : Contact} (clock : Nat → Nat), Facing peer T L F (x + 1) c →
      x ≤ L.entries.length → ∃ k ≤ x, CaughtUpAfter config peer clock c L F k := by
  intro x
  -- each refusal takes one from `next_index_`, and at 1 the logs meet
  induction x with
  | zero =>
    intro c clock h hle
    exact ⟨0, Nat.le_refl 0, h.caughtUp_now hL hF hmatch hle (Or.inl rfl)⟩
  | succ x ih =>
    intro c clock h hle
    by_cases hmeet : Meets F.entries L.entries (x + 1)
    · exact ⟨0, Nat.zero_le _, h.caughtUp_now hL hF hmatch hle hmeet⟩
    · obtain ⟨hrefused, _, hfacing, _⟩ :=
        h.refused config (clock 0) hL hF (Nat.succ_pos _) (by omega) hmeet
      obtain ⟨k, hk, hcaught⟩ := ih (fun i => clock (i + 1)) hfacing (by omega)
      exact ⟨k + 1, Nat.succ_le_succ hk, hcaught.after_refused hrefused⟩

/-- A round leaves `next_index_` positive, so that `prev_log_index` does not wrap. -/
theorem round_next_pos (config : ClusterConfig) (now : Nat)
    (h : 0 < c.leader.nextIndex.valueAt peer) :
    0 < (c.round config peer now).1.leader.nextIndex.valueAt peer := by
  unfold round
  cases c.leader.replicateRequest config peer with
  | none => exact h
  | some req =>
    show 0 < (c.leader.replicateReply req.term req.entries peer
      (c.follower.handleAppendEntries req).2 now).nextIndex.valueAt peer
    rcases c.leader.replicateReply_cases req.term req.entries peer
      (c.follower.handleAppendEntries req).2 now with
      heq | ⟨_, heq⟩ | ⟨_, _, _, heq⟩ | ⟨_, hnext, _, heq⟩ <;> rw [heq]
    · exact h
    · exact h
    · rw [(c.leader.recordAck req.entries peer now).advanceCommitIndex_fields.2.2.2.1]
      rcases c.leader.recordAck_peer req.entries peer now peer with
        ⟨hsame, _⟩ | ⟨_, last, _, hlast, _⟩
      · rw [hsame]
        exact h
      · rw [hlast]
        exact Nat.succ_pos _
    · show 0 < (c.leader.nextIndex.put peer _).valueAt peer
      rw [PeerMap.valueAt_put_self]
      omega

theorem rounds_next_pos (config : ClusterConfig) (clock : Nat → Nat)
    (h : 0 < c.leader.nextIndex.valueAt peer) (k : Nat) :
    0 < (c.rounds config peer clock k).leader.nextIndex.valueAt peer := by
  induction k with
  | zero => exact h
  | succ k ih => exact round_next_pos config (clock k) ih

/-- **A follower catches up.**  From `next_index_ = |L| + 1` a success comes after at most `|L|`
refusals, `next_index_` stays positive in all rounds, and then the follower has the leader's log; it
keeps what it had behind it only if it had all of the leader's log before. -/
theorem catchUp_converges (config : ClusterConfig) (peer : NodeId) (clock : Nat → Nat) {c : Contact}
    (hlead : c.leader.state = .kLeader) (hL : c.leader.log.Contiguous)
    (hF : c.follower.log.Contiguous) (hterm : c.follower.currentTerm ≤ c.leader.currentTerm)
    (hmatch : LogsMatch entryTerm c.follower.log.entries c.leader.log.entries)
    (hnext : c.leader.nextIndex.valueAt peer = c.leader.log.entries.length + 1) :
    (∀ i, 0 < (c.rounds config peer clock i).leader.nextIndex.valueAt peer) ∧
      ∃ k ≤ c.leader.log.entries.length,
        CaughtUpAfter config peer clock c c.leader.log c.follower.log k := by
  refine ⟨fun i => rounds_next_pos config clock (by omega) i, ?_⟩
  have hfacing : Facing peer c.leader.currentTerm c.leader.log c.follower.log
      (c.leader.log.entries.length + 1) c := ⟨hlead, rfl, rfl, hnext, rfl, hterm⟩
  exact Facing.catchUp hL hF hmatch clock hfacing (Nat.le_refl _)

end CatchUp

/-- A log to which entries of these terms were appended. -/
def logOf (terms : List Nat) : Log :=
  terms.foldl
    (fun log term => log.append { term, index := 0, op := .kDelete, key := [97], value := [] }) {}

theorem logOf_contiguous (terms : List Nat) : (logOf terms).Contiguous := by
  suffices h : ∀ (terms : List Nat) {log : Log}, log.Contiguous →
      (terms.foldl (fun log term => log.append
        { term, index := 0, op := .kDelete, key := [97], value := [] }) log).Contiguous from
    h terms Log.Contiguous.empty
  intro terms
  induction terms with
  | nil => exact id
  | cons term terms ih => exact fun hlog => ih (Log.append_contiguous hlog _)

/-- A node in `term` with such a log. -/
def nodeOf (term : Nat) (terms : List Nat) : RaftNode where
  currentTerm := term
  log := logOf terms
  storage := { kv := ShardedKV.empty (fun _ => 0) }

/-- Node 1 leads term 3 with a second entry of term 2; node 2 has one of term 1 there, and a third
entry. -/
def conflicting : Contact where
  leader := (nodeOf 3 [1, 2]).becomeLeader (Membership.trio.configOf 1)
  follower := nodeOf 2 [1, 1, 1]

theorem conflicting_logsMatch :
    LogsMatch entryTerm conflicting.follower.log.entries conflicting.leader.log.entries := by
  intro i a b ha hb hab
  match i with
  | 0 => decide +kernel
  | 1 =>
    cases ha
    cases hb
    exact absurd hab (by decide)
  | i + 2 => cases hb

/-- The third entry is gone afterwards. -/
theorem conflicting_converges :
    ∃ k ≤ 2, CaughtUpAfter (Membership.trio.configOf 1) 2 (fun _ => 0) conflicting
      conflicting.leader.log conflicting.follower.log k :=
  (catchUp_converges (Membership.trio.configOf 1) 2 (fun _ => 0) rfl (logOf_contiguous [1, 2])
    (logOf_contiguous [1, 1, 1]) (by decide) conflicting_logsMatch (by decide +kernel)).2

/-! ## The lag -/

section Lag

variable {config : ClusterConfig} {peer : NodeId} {clock : Nat → Nat} {T x : Nat} {L F : Log}
  {c : Contact}

/-- No lag is reported for a peer that is known to hold the whole log. -/
theorem replicationLagEntries_zero {r : RaftNode}
    (h : r.state ≠ .kLeader ∨ r.log.lastIndex ≤ r.matchIndex.valueAt peer) :
    r.replicationLagEntries config peer = 0 := by
  unfold replicationLagEntries
  by_cases hpeer : peer = config.localNodeId
  · rw [if_pos hpeer]
  by_cases hl : r.state ≠ .kLeader
  · rw [if_neg hpeer, if_pos hl]
  have hmatch := h.resolve_left hl
  unfold PeerMap.valueAt at hmatch
  rw [if_neg hpeer, if_neg hl]
  cases hfind : r.matchIndex.find? (fun p => p.1 == peer) with
  | none => rfl
  | some p =>
    rw [hfind] at hmatch
    exact if_neg (Nat.not_lt.mpr hmatch)

theorem lastIndex_le_of_lag_zero {r : RaftNode} (hl : r.state = .kLeader)
    (hne : peer ≠ config.localNodeId) (hkey : peer ∈ r.matchIndex.map (·.1))
    (h : r.replicationLagEntries config peer = 0) :
    r.log.lastIndex ≤ r.matchIndex.valueAt peer := by
  unfold replicationLagEntries at h
  unfold PeerMap.valueAt
  rw [if_neg hne, if_neg (by simp [hl])] at h
  cases hfind : r.matchIndex.find? (fun p => p.1 == peer) with
  | none =>
    obtain ⟨p, hp, rfl⟩ := List.mem_map.mp hkey
    simpa using List.find?_eq_none.mp hfind p hp
  | some p =>
    rw [hfind] at h
    show r.log.lastIndex ≤ p.2
    by_contra hlt
    rw [Nat.not_le] at hlt
    simp only [if_pos hlt] at h
    omega

/-- Once a round has succeeded whose entries reach the end of the leader's log, the leader reports
no lag of the peer. -/
def LagClears (config : ClusterConfig) (peer : NodeId) (c : Contact) : Prop :=
  ∀ clock k req resp, c.exchange config peer clock k = some (req, resp) → resp.success = true →
    req.prevLogIndex + req.entries.length = (c.rounds config peer clock k).leader.log.lastIndex →
      ∀ j > k, (c.rounds config peer clock j).leader.replicationLagEntries config peer = 0

/-- A round that does not succeed can be left out. -/
theorem LagClears.after_refused
    (hround : ∀ now req resp, (c.round config peer now).2 = some (req, resp) →
      resp.success = false)
    (h : ∀ now, LagClears config peer (c.round config peer now).1) : LagClears config peer c := by
  intro clock k req resp hexch hsucc hend j hj
  cases k with
  | zero =>
    have hfail := hround (clock 0) req resp hexch
    rw [hfail] at hsucc
    cases hsucc
  | succ k =>
    obtain ⟨j, rfl⟩ : ∃ i, j = i + 1 := ⟨j - 1, by omega⟩
    rw [exchange_succ] at hexch
    rw [rounds_succ] at hend ⊢
    exact h (clock 0) (fun i => clock (i + 1)) k req resp hexch hsucc hend j (by omega)

/-- The leader knows the peer to hold all of `L`, or has stepped down. -/
def Known (peer : NodeId) (L : Log) (c : Contact) : Prop :=
  c.leader.state ≠ .kLeader ∨
    c.leader.log = L ∧ c.leader.matchIndex.valueAt peer = L.entries.length

/-- The leader knows the peer to hold all of `L`, or its next request to it carries entries; or it
has stepped down. -/
def Reckons (peer : NodeId) (L : Log) (c : Contact) : Prop :=
  c.leader.state ≠ .kLeader ∨
    ∃ T F x, Facing peer T L F x c ∧ F.Contiguous ∧ 0 < x ∧ x ≤ L.entries.length + 1 ∧
      (c.leader.matchIndex.valueAt peer = L.entries.length ∨ x ≤ L.entries.length)

theorem Meets.le {F L : List LogEntry} {i : Nat} (h : Meets F L i) : i ≤ F.length := by
  rcases h with rfl | ⟨a, _, ha, _⟩
  · exact Nat.zero_le _
  · have := (List.getElem?_eq_some_iff.mp ha).1
    omega

theorem round_of_not_leader (hl : c.leader.state ≠ .kLeader) (now : Nat) :
    c.round config peer now = (c, none) := by
  unfold round replicateRequest
  rw [if_pos hl]

/-- **One round**: the leader goes on reckoning so, a success makes the peer known to be up to date,
and it stays known. -/
theorem Reckons.round (hL : L.Contiguous) (h : Reckons peer L c) (now : Nat) :
    Reckons peer L (c.round config peer now).1 ∧
      ((∃ req resp, (c.round config peer now).2 = some (req, resp) ∧ resp.success = true) →
        Known peer L (c.round config peer now).1) ∧
      (Known peer L c → Known peer L (c.round config peer now).1) := by
  rcases h with hl | ⟨T, F, x, hf, hF, hpos, hle, hdue⟩
  · rw [round_of_not_leader hl]
    refine ⟨Or.inl hl, ?_, id⟩
    rintro ⟨_, _, hnone, _⟩
    cases hnone
  by_cases hmeet : Meets F.entries L.entries (x - 1)
  · obtain ⟨_, _, _, _, _, hfacing, hmatch⟩ := hf.accepted config now hL hF hpos hle hmeet
    have hall : (c.round config peer now).1.leader.matchIndex.valueAt peer = L.entries.length := by
      rw [hmatch]
      split
      · rfl
      · exact hdue.resolve_right (by assumption)
    have hknown : Known peer L (c.round config peer now).1 := Or.inr ⟨hfacing.log, hall⟩
    exact ⟨Or.inr ⟨_, _, _, hfacing, (appendLoop_entries hF hmeet.le _).2, Nat.succ_pos _,
      Nat.le_refl _, Or.inl hall⟩, fun _ => hknown, fun _ => hknown⟩
  · obtain ⟨⟨req, resp, hexch, hfail⟩, hx, hfacing, hmatch⟩ :=
      hf.refused config now hL hF hpos hle hmeet
    refine ⟨Or.inr ⟨_, _, _, hfacing, hF, by omega, by omega, Or.inr (by omega)⟩, ?_, ?_⟩
    · rintro ⟨req', resp', hexch', hsucc⟩
      rw [hexch] at hexch'
      cases hexch'
      rw [hfail] at hsucc
      cases hsucc
    · intro hk
      obtain ⟨_, hk⟩ := hk.resolve_left (fun hn => hn hf.leads)
      refine Or.inr ⟨hfacing.log, ?_⟩
      rw [hmatch]
      exact hk

theorem Reckons.rounds (hL : L.Contiguous) (h : Reckons peer L c) (k : Nat) :
    Reckons peer L (c.rounds config peer clock k) := by
  induction k with
  | zero => exact h
  | succ k ih => exact (ih.round hL (clock k)).1

theorem Known.rounds (hL : L.Contiguous) (h : Reckons peer L c) {k j : Nat} (hkj : k ≤ j)
    (hk : Known peer L (c.rounds config peer clock k)) :
    Known peer L (c.rounds config peer clock j) := by
  induction hkj with
  | refl => exact hk
  | step _ ih => exact ((h.rounds hL _).round hL _).2.2 ih

theorem Reckons.lagClears (hL : L.Contiguous) (h : Reckons peer L c) :
    LagClears config peer c := by
  intro clock k req resp hexch hsucc _ j hj
  have hknown : Known peer L (c.rounds config peer clock (k + 1)) :=
    ((h.rounds hL k).round hL (clock k)).2.1 ⟨req, resp, hexch, hsucc⟩
  refine replicationLagEntries_zero ?_
  rcases hknown.rounds hL h hj with hl | ⟨hlog, hmatch⟩
  · exact Or.inl hl
  · refine Or.inr ?_
    rw [hlog, hL.lastIndex_eq, hmatch]

/-- A follower in a later term refuses, and the leader steps down. -/
theorem round_of_later (hl : c.leader.state = .kLeader)
    (hterm : c.leader.currentTerm < c.follower.currentTerm) (now : Nat) :
    (c.round config peer now).1.leader.state ≠ .kLeader ∧
      ∀ req resp, (c.round config peer now).2 = some (req, resp) → resp.success = false := by
  have hstale : ∀ prev prevTerm commit entries,
      c.follower.handleAppendEntries
          ⟨c.leader.currentTerm, config.localNodeId, prev, prevTerm, commit, entries⟩ =
        (c.follower, ⟨c.follower.currentTerm, false⟩) := by
    intro prev prevTerm commit entries
    unfold handleAppendEntries
    rw [if_pos hterm]
  unfold round replicateRequest appendEntriesRequest
  rw [if_neg (by simp [hl])]
  simp only [hstale]
  refine ⟨?_, fun req resp hexch => ?_⟩
  · unfold replicateReply
    rw [if_neg (by simp [hl]), if_pos hterm]
    simp [becomeFollower, persistState]
  · cases hexch
    rfl

/-- The leader right after its election. -/
theorem becomeLeader_facing {node : RaftNode} (hL : node.log.Contiguous)
    (hpeer : peer ∈ config.otherPeers) {follower : RaftNode}
    (hterm : follower.currentTerm ≤ node.currentTerm) :
    Facing peer node.currentTerm node.log follower.log (node.log.entries.length + 1)
      ⟨node.becomeLeader config, follower⟩ := by
  refine ⟨rfl, rfl, rfl, ?_, rfl, hterm⟩
  show PeerMap.valueAt (config.otherPeers.map fun id => (id, node.log.lastIndex + 1)) peer = _
  rw [PeerMap.valueAt_map hpeer, hL.lastIndex_eq]

/-- A round adds no record of a peer. -/
theorem round_keys (config : ClusterConfig) (now : Nat)
    (hkey : peer ∈ c.leader.matchIndex.map (·.1)) :
    (c.round config peer now).1.leader.matchIndex.map (·.1) =
      c.leader.matchIndex.map (·.1) := by
  unfold Contact.round
  cases c.leader.replicateRequest config peer with
  | none => rfl
  | some req =>
    show (c.leader.replicateReply req.term req.entries peer
      (c.follower.handleAppendEntries req).2 now).matchIndex.map (·.1) = _
    rcases c.leader.replicateReply_cases req.term req.entries peer
      (c.follower.handleAppendEntries req).2 now with
      heq | ⟨_, heq⟩ | ⟨_, _, _, heq⟩ | ⟨_, _, _, heq⟩ <;> rw [heq]
    · rfl
    · rw [(c.leader.recordAck req.entries peer now).advanceCommitIndex_fields.2.2.1]
      unfold recordAck
      split
      · rfl
      · exact PeerMap.keys_put hkey

theorem becomeLeader_unmoved {node follower : RaftNode} (hL : node.log.Contiguous)
    (hF : follower.log.Contiguous) (hpeer : peer ∈ config.otherPeers)
    (hterm : follower.currentTerm ≤ node.currentTerm)
    (hmeet : Meets follower.log.entries node.log.entries node.log.entries.length)
    (hclears : LagClears config peer ⟨node.becomeLeader config, follower⟩) :
    node.log.entries = [] := by
  have hf := becomeLeader_facing hL hpeer hterm
  obtain ⟨req, resp, hexch, hsucc, hc, hfacing, hmatch⟩ :=
    hf.accepted config 0 hL hF (Nat.succ_pos _) (Nat.le_refl _) hmeet
  have hend : req.prevLogIndex + req.entries.length = node.log.lastIndex := by
    rw [hc.prev, hc.entries, List.length_drop, hL.lastIndex_eq]
    omega
  have hlag := hclears (fun _ => 0) 0 req resp hexch hsucc hend 1 (by omega)
  have hkey : peer ∈ (node.becomeLeader config).matchIndex.map (·.1) := by
    show peer ∈ (config.otherPeers.map fun id => (id, 0)).map (·.1)
    exact List.mem_map.mpr ⟨(peer, 0), List.mem_map.mpr ⟨peer, hpeer, rfl⟩, rfl⟩
  have hne : peer ≠ config.localNodeId := by simpa using (List.mem_filter.mp hpeer).2
  have hle := lastIndex_le_of_lag_zero hfacing.leads hne
    (by rw [round_keys config 0 hkey]; exact hkey) hlag
  have h0 : (node.becomeLeader config).matchIndex.valueAt peer = 0 := PeerMap.valueAt_map hpeer
  rw [hmatch, if_neg (by omega), hfacing.log, hL.lastIndex_eq] at hle
  exact List.length_eq_zero_iff.mp (Nat.le_zero.mp (hle.trans (Nat.le_of_eq h0)))

/-- **The lag of a caught-up follower.** -/
theorem lag_clears_iff (config : ClusterConfig) (peer : NodeId) (hpeer : peer ∈ config.otherPeers)
    (node follower : RaftNode) (hL : node.log.Contiguous) (hF : follower.log.Contiguous) :
    LagClears config peer ⟨node.becomeLeader config, follower⟩ ↔
      (node.log.entries = [] ∨ node.currentTerm < follower.currentTerm ∨
        ¬ Meets follower.log.entries node.log.entries node.log.entries.length) := by
  constructor
  · intro hclears
    by_contra hno
    simp only [not_or, not_not, Nat.not_lt] at hno
    exact hno.1 (becomeLeader_unmoved hL hF hpeer hno.2.1 hno.2.2 hclears)
  · rintro hcond
    by_cases hterm : node.currentTerm < follower.currentTerm
    · exact LagClears.after_refused (fun now => (round_of_later rfl hterm now).2)
        (fun now => Reckons.lagClears hL (Or.inl (round_of_later rfl hterm now).1))
    have hf := becomeLeader_facing hL hpeer (Nat.not_lt.mp hterm)
    rcases hcond with hnil | hterm' | hmiss
    · refine Reckons.lagClears hL
        (Or.inr ⟨_, _, _, hf, hF, Nat.succ_pos _, Nat.le_refl _, Or.inl ?_⟩)
      rw [hnil]
      exact PeerMap.valueAt_map hpeer
    · exact absurd hterm' hterm
    · refine LagClears.after_refused (fun now req resp hexch => ?_) (fun now => ?_)
      · obtain ⟨⟨_, _, hexch', hfail⟩, _⟩ :=
          hf.refused config now hL hF (Nat.succ_pos _) (Nat.le_refl _) hmiss
        rw [hexch] at hexch'
        cases hexch'
        exact hfail
      · obtain ⟨_, hx, hfacing, _⟩ :=
          hf.refused config now hL hF (Nat.succ_pos _) (Nat.le_refl _) hmiss
        exact Reckons.lagClears hL
          (Or.inr ⟨_, _, _, hfacing, hF, by omega, by omega, Or.inr (by omega)⟩)

end Lag

/-- A follower with an empty log. -/
theorem empty_follower_lag_clears :
    LagClears (Membership.trio.configOf 1) 2
      ⟨(nodeOf 2 [1, 1]).becomeLeader (Membership.trio.configOf 1), nodeOf 1 []⟩ := by
  refine (lag_clears_iff (Membership.trio.configOf 1) 2 (by decide) (nodeOf 2 [1, 1]) (nodeOf 1 [])
    (logOf_contiguous [1, 1]) (logOf_contiguous [])).mpr (Or.inr (Or.inr ?_))
  rintro (h | ⟨a, _, ha, _⟩)
  · cases h
  · cases ha

/-- Node 1 is elected with one entry, which node 2 holds as well. -/
def replicated : Contact where
  leader := (nodeOf 2 [1]).becomeLeader (Membership.trio.configOf 1)
  follower := nodeOf 2 [1]

/-- Its first round succeeds at the end of the log, and the lag still reads 1. -/
theorem replicated_still_lags :
    ∃ req resp,
      replicated.exchange (Membership.trio.configOf 1) 2 (fun _ => 0) 0 = some (req, resp) ∧
        resp.success = true ∧
        req.prevLogIndex + req.entries.length = replicated.leader.log.lastIndex ∧
        (replicated.rounds (Membership.trio.configOf 1) 2
          (fun _ => 0) 1).leader.replicationLagEntries (Membership.trio.configOf 1) 2 = 1 ∧
        ¬ LagClears (Membership.trio.configOf 1) 2 replicated := by
  obtain ⟨⟨req, resp⟩, hexch, hall⟩ : ∃ p : AppendEntriesRequest × AppendEntriesResponse,
      replicated.exchange (Membership.trio.configOf 1) 2 (fun _ => 0) 0 = some p ∧
        decide (p.2.success = true ∧
          p.1.prevLogIndex + p.1.entries.length = replicated.leader.log.lastIndex ∧
          (replicated.rounds (Membership.trio.configOf 1) 2
            (fun _ => 0) 1).leader.replicationLagEntries (Membership.trio.configOf 1) 2 = 1) =
          true :=
    Runs.exists_of_any (by decide +kernel)
  obtain ⟨hsucc, hend, hlag⟩ := of_decide_eq_true hall
  refine ⟨req, resp, hexch, hsucc, hend, hlag, fun h => ?_⟩
  rw [h _ 0 req resp hexch hsucc hend 1 Nat.one_pos] at hlag
  cases hlag

end Contact

end NeuralKV
