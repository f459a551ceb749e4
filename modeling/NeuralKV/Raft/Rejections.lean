import NeuralKV.Raft.Commit
import NeuralKV.Raft.Safety

/-!
# Writes answered with `kWrongLeader`

`Handle` gives this answer in two situations: the node does not lead when the request arrives (or
when `Propose` takes the lock), and nothing has been appended; or `Propose` has appended an entry,
the node has lost the leadership, and the entry is not applied there yet.  In the second case the
entry may be in other logs, or on its way to them.

* `rejected_write_applied` — a crash-free run in which a later leader commits the entry and applies
  it after the answer was given.
* `Gone` — an entry that is in no log, in no request still to be delivered and in no store;
  `gone_run` shows that it stays so.
* `wrong_leader_answer` — **what the answer says in every crash-free run**: nothing was appended, or
  the node had led the entry's term and, when `Propose` returned, led no more and had not applied the
  entry.
-/

set_option autoImplicit false

namespace NeuralKV

open Consensus Cluster
open Runs (exists_run putThread mem_putThread)

/-! ## Entries that are gone -/

/-- The log entries a request carries. -/
def Request.entries : Request → List LogEntry
  | .requestVote _ => []
  | .appendEntries req => req.entries

/-- Entry `e` is in no log, in no request that can still be delivered, and in no store. -/
structure Gone (m : Membership) (e : LogEntry) (s : Cluster) : Prop where
  logs : ∀ k ∈ m.ids, e ∉ (s.servers k).raft.log.entries
  requests : ∀ i ∈ s.inFlight, ∀ r ∈ s.rpcs[i]?, e ∉ r.req.entries
  stores : ∀ k ∈ m.ids, e ∉ (s.servers k).raft.storage.applied

section Moves

variable {m : Membership} {s s' : Cluster} {a : Action} {n : NodeId} {e : LogEntry}

/-- A request that can be delivered after a step could be delivered before it, or has just been
built from the log of its sender. -/
def Undelivered (m : Membership) (s : Cluster) (i : Nat) (r : Rpc) : Prop :=
  (i ∈ s.inFlight ∧ s.rpcs[i]? = some r) ∨
    ∃ k ∈ m.ids, r.req.entries ⊆ (s.servers k).raft.log.entries

theorem update_undelivered {srv : Server} {send : Option (NodeId × Request)} {evs : List Event}
    (hn : n ∈ m.ids)
    (hsend : ∀ p, send = some p → p.2.entries ⊆ (s.servers n).raft.log.entries) :
    ∀ i ∈ (s.update n srv send evs).inFlight, ∀ r, (s.update n srv send evs).rpcs[i]? = some r →
      Undelivered m s i r := by
  intro i hi r hr
  cases send with
  | none =>
    simp only [Cluster.update, Option.map_none, Option.toList_none, List.append_nil] at hi hr
    exact Or.inl ⟨hi, hr⟩
  | some p =>
    simp only [Cluster.update, Option.map_some, Option.toList_some] at hi hr
    by_cases hlt : i < s.rpcs.length
    · rw [List.getElem?_append_left hlt] at hr
      rcases List.mem_append.mp hi with h | h
      · exact Or.inl ⟨h, hr⟩
      · have := List.mem_singleton.mp h
        omega
    · -- only the new request has such a number
      rw [List.getElem?_append_right (by omega)] at hr
      obtain rfl := List.mem_singleton.mp (List.mem_of_getElem? hr)
      exact Or.inr ⟨n, hn, hsend p rfl⟩

theorem Log.entriesFrom_subset (log : Log) (i : Nat) : log.entriesFrom i ⊆ log.entries := by
  unfold Log.entriesFrom
  split
  · exact List.nil_subset _
  · exact fun _ h => List.mem_of_mem_drop h

/-- **Every request that can be delivered has its source.** -/
theorem move_undelivered (mv : Move m s a s') :
    ∀ i ∈ s'.inFlight, ∀ r, s'.rpcs[i]? = some r → Undelivered m s i r := by
  have answered : ∀ {k : NodeId} {raft : RaftNode} {rpc : Nat} {resp : Response},
      ∀ i ∈ (s.answer k raft rpc resp).inFlight, ∀ r,
        (s.answer k raft rpc resp).rpcs[i]? = some r → Undelivered m s i r := by
    intro k raft rpc resp i hi r hr
    simp only [Cluster.answer, Cluster.update, Option.map_none, Option.toList_none,
      List.append_nil] at hi hr
    exact Or.inl ⟨List.mem_of_mem_erase hi, hr⟩
  cases mv with
  | tick d => exact fun i hi r hr => Or.inl ⟨hi, hr⟩
  | requestVote _ _ _ _ => exact answered
  | appendEntries _ _ _ _ => exact answered
  | replicateIdle _ => exact fun i hi r hr => Or.inl ⟨hi, hr⟩
  | callVoter hn _ =>
    refine update_undelivered hn ?_
    rintro p ⟨⟩
    exact List.nil_subset _
  | replicate hn _ _ hreq =>
    refine update_undelivered hn ?_
    rintro p ⟨⟩
    unfold RaftNode.replicateRequest at hreq
    split at hreq <;> cases hreq
    exact Log.entriesFrom_subset _ _
  | readStep hn _ hmove =>
    cases hmove with
    | sent _ hreq =>
      refine update_undelivered hn ?_
      rintro p ⟨⟩
      unfold RaftNode.confirmRequest at hreq
      split at hreq <;> cases hreq
      exact List.nil_subset _
    | _ => exact update_undelivered hn (fun p hp => by cases hp)
  | crash hn _ | restart hn _ _ | startElection hn _ _ | voteLost hn _ | voteReply hn _ _
  | endElection hn _ | replicateReply hn _ _ _ _ _ | write hn _ | writeStep hn _ _ | read hn _
  | readLost hn _ _ => exact update_undelivered hn (fun p hp => by cases hp)

theorem move_proposes (mv : Move m s a s') (h : s'.history = s.history ++ [.proposed n e]) :
    ∃ w ∈ (s.servers n).writes,
      e = { w.entry with
        term := (s.servers n).raft.currentTerm
        index := (s.servers n).raft.log.wal.lastIndex + 1 } := by
  have quiet : ∀ {evs : List Event}, s.history ++ evs = s.history ++ [.proposed n e] →
      (∀ ev ∈ evs, ev ≠ .proposed n e) → False := by
    intro evs heq hev
    rw [List.append_cancel_left heq] at hev
    exact hev _ (List.mem_singleton_self _) rfl
  have none : s.history = s.history ++ [.proposed n e] → False := by
    intro heq
    have := congrArg List.length heq
    simp at this
  cases mv with
  | tick d => exact (none h).elim
  | replicateIdle _ => exact (none h).elim
  | endElection _ _ =>
    refine (quiet h ?_).elim
    intro ev hev
    split at hev
    · rw [List.mem_singleton.mp hev]
      simp
    · cases hev
  | replicateReply _ _ _ _ _ _ =>
    refine (quiet h ?_).elim
    intro ev hev
    split at hev
    · cases hev
    · rw [List.mem_singleton.mp hev]
      simp
  | writeStep _ hw hmove =>
    cases hmove with
    | passed _ hevents =>
      refine (quiet h ?_).elim
      intro ev hev
      obtain ⟨_, _, rfl⟩ := hevents ev hev
      simp
    | proposed _ _ hentry =>
      cases List.append_cancel_left h
      exact ⟨_, List.mem_of_getElem? hw, hentry⟩
    | returned _ _ _ hevents =>
      refine (quiet h ?_).elim
      intro ev hev
      rcases List.mem_cons.mp hev with rfl | hev
      · simp
      · obtain ⟨_, _, rfl⟩ := hevents ev hev
        simp
  | readStep _ _ hmove =>
    refine (quiet h ?_).elim
    cases hmove <;> simp
  | _ => exact (quiet h (fun _ hev => by cases hev)).elim

end Moves

section Preservation

variable {m : Membership} {h : Hist} {s s' t : Cluster} {a : Action} {n o : NodeId} {e : LogEntry}
  {r' : RaftNode} {evs : List Event}

/-- An accepted request brings only its own entries into the log. -/
theorem Sim.mem_appended (S : Sim m h s) {rpc : Nat} {r : Rpc} {req : AppendEntriesRequest}
    (hr : s.rpcs[rpc]? = some r) (hreq : r.req = .appendEntries req) (hn : r.callee = n)
    (hprev : ((s.servers n).raft.acceptLeader req).prevMismatch req = false)
    (he : e ∈ ((s.servers n).raft.appended req).log.entries) :
    e ∈ (s.servers n).raft.log.entries ∨ e ∈ req.entries := by
  have N := S.node n
  have R := S.delivered hr hreq hn
  have hle := (RaftNode.hasPrev_of_accepted N.contiguous hprev).le
  have hnum : NumberedFrom req.prevLogIndex req.entries :=
    NumberedFrom.of_segment (S.books req.term) R.entries
  rw [RaftNode.appended_log, (RaftNode.appendLoop_spec N.contiguous hle hnum).1] at he
  exact mem_overwrite he

/-- **An entry that is gone enters no log**: not from a request, and not from `Propose`, which
never gives an index of its term twice. -/
theorem gone_log (I : HInv m h) (S : Sim m h s) (P : ProposedBy h o e) (G : Gone m e s)
    (hcrash : crashFree s a) (mv : Move m s a s') (E : Effect m s a n r' evs)
    (hhist : s'.history = s.history ++ evs) (hn : n ∈ m.ids) : e ∉ r'.log.entries := by
  have old := G.logs n hn
  cases E with
  | follows hf _ => rw [hf.log]; exact old
  | elected _ _ _ _ => exact old
  | proposed hl =>
    rename_i entry
    obtain ⟨w, _, hentry⟩ := move_proposes mv hhist
    have N := S.node n
    have hterm : entry.term = (s.servers n).raft.currentTerm := by rw [hentry]
    have hindex : entry.index = (s.servers n).raft.log.wal.lastIndex + 1 := by rw [hentry]
    rw [N.contiguous.lastIndex] at hindex
    intro he
    rw [Log.append_entries_self N.contiguous hindex] at he
    rcases List.mem_append.mp he with h₁ | h₁
    · exact old h₁
    · obtain rfl := List.mem_singleton.mp h₁
      -- the leader's log is the book of its term, and the book holds `e` already
      obtain ⟨_, _, hbook⟩ := P
      rw [hterm, ← N.leader_log I hl] at hbook
      exact old (List.mem_of_getElem? hbook)
  | @appended rpc r req ha hr hreq hcallee _ hprev =>
    intro he
    rcases S.mem_appended hr hreq hcallee hprev he with h₁ | h₁
    · exact old h₁
    · subst ha
      have hin : rpc ∈ s.inFlight := by
        cases mv with
        | requestVote hin _ _ _ => exact hin
        | appendEntries hin _ _ _ => exact hin
      refine G.requests rpc hin r hr ?_
      rw [hreq]
      exact h₁
  | @advanced r₁ _ _ _ hf _ _ _ =>
    show e ∉ r₁.log.entries
    rw [hf.log]
    exact old
  | restarted ha _ =>
    subst ha
    exact hcrash.elim

theorem gone_store (I : HInv m h) (S : Sim m h s) (G : Gone m e s) (hcrash : crashFree s a)
    (E : Effect m s a n r' evs) (hn : n ∈ m.ids) (hlog : e ∉ r'.log.entries) :
    e ∉ r'.storage.applied := by
  cases E.store I S with
  | same _ hst =>
    rw [hst]
    exact G.stores n hn
  | applied hst =>
    rw [hst]
    intro he
    rcases List.mem_append.mp he with h₁ | h₁
    · exact G.stores n hn h₁
    · exact hlog (List.mem_of_mem_drop (List.mem_of_mem_take h₁))
  | restarted ha _ =>
    subst ha
    exact hcrash.elim

/-- **A step leaves an entry that is gone where it is: nowhere.** -/
theorem gone_step (I : HInv m h) (S : Sim m h s) (P : ProposedBy h o e) (G : Gone m e s)
    (hcrash : crashFree s a) (mv : Move m s a s') : Gone m e s' := by
  obtain ⟨n, r', evs, E, hn, hother, hhist⟩ := move_effect mv
  have hlog : n ∈ m.ids → e ∉ r'.log.entries := gone_log I S P G hcrash mv E hhist
  subst hn
  refine ⟨?_, ?_, ?_⟩
  · exact forall_effect rfl hother (P := fun k r => k ∈ m.ids → e ∉ r.log.entries)
      hlog (fun k _ => G.logs k)
  · intro i hi r hr
    rcases move_undelivered mv i hi r hr with ⟨h₁, h₂⟩ | ⟨k, hk, h₁⟩
    · exact G.requests i h₁ r h₂
    · exact fun he => G.logs k hk (h₁ he)
  · exact forall_effect rfl hother (P := fun k r => k ∈ m.ids → e ∉ r.storage.applied)
      (fun hk => gone_store I S G hcrash E hk (hlog hk)) (fun k _ => G.stores k)

/-- **An entry that is gone stays gone.** -/
theorem gone_run {hash : Bytes → Nat} (hr : Run m hash crashFree s) {status : Status}
    {L : List LogEntry} (he : Event.proposeReturned o e status L ∈ s.history) (G : Gone m e s)
    (ht : Runs.Run (step m) s crashFree t) : Gone m e t := by
  suffices hall : Event.proposeReturned o e status L ∈ t.history ∧ Gone m e t from hall.2
  induction ht with
  | init => exact ⟨he, G⟩
  | step ht ha hs ih =>
    obtain ⟨he', G'⟩ := ih
    obtain ⟨h, I, S⟩ := run_simulated (hr.trans ht)
    have mv := step_move hs
    obtain ⟨evs, hhist, _⟩ := move_events mv
    refine ⟨?_, gone_step I S (S.history.events _ he') G' ha mv⟩
    rw [hhist]
    exact List.mem_append_left _ he'

end Preservation

/-! ## The answers -/

/-- A step of the run to `s` in which `Propose` on node `n` gives up the entry `e` that it has
appended: the node was elected in the entry's term, but now it does not lead and has not applied an
entry at that index. -/
structure GivesUp (m : Membership) (hash : Bytes → Nat) (n : NodeId) (e : LogEntry)
    (s before after : Cluster) : Prop where
  reached : Run m hash crashFree before
  returned : ∃ thread timedOut L,
    before.step m (.act n (.writeStep thread timedOut)) = some after ∧
      after.history = before.history ++ [.proposeReturned n e RaftNode.notLeader L]
  continued : Runs.Run (step m) after crashFree s
  elected : ∃ L, Event.becameLeader n e.term L ∈ before.history
  replaced : (before.servers n).raft.state ≠ .kLeader
  unapplied : (before.servers n).raft.storage.lastAppliedIndex < e.index

/-- `Propose` on node `n` has given up the entry. -/
def GaveUp (m : Membership) (hash : Bytes → Nat) (n : NodeId) (e : LogEntry) (s : Cluster) : Prop :=
  ∃ before after, GivesUp m hash n e s before after

/-- Where an answer `kWrongLeader` with an entry comes from. -/
structure RejectedInv (m : Membership) (hash : Bytes → Nat) (s : Cluster) : Prop where
  threads : ∀ n, ∀ w ∈ (s.servers n).writes, ∀ e, w.stage = .rejected (some e) →
    GaveUp m hash n e s
  answers : ∀ n e resp, Event.answered n (some e) resp ∈ s.history →
    resp.status = .kWrongLeader → GaveUp m hash n e s

section Answers

variable {m : Membership} {hash : Bytes → Nat} {s s' : Cluster} {a : Action} {n : NodeId}

theorem GaveUp.step {e : LogEntry} (h : GaveUp m hash n e s) (ha : crashFree s a)
    (hs : s.step m a = some s') : GaveUp m hash n e s' := by
  obtain ⟨before, after, G⟩ := h
  exact ⟨before, after, { G with continued := G.continued.step ha hs }⟩

theorem run_history {ok : Cluster → Action → Prop} {t : Cluster}
    (ht : Runs.Run (Cluster.step m) s ok t) : s.history <+: t.history := by
  induction ht with
  | init => exact List.prefix_refl _
  | step _ _ hs ih =>
    obtain ⟨evs, hhist, _⟩ := move_events (step_move hs)
    rw [hhist]
    exact ih.trans (List.prefix_append _ _)

theorem GaveUp.recorded {e : LogEntry} (h : GaveUp m hash n e s) :
    ∃ L, Event.proposeReturned n e RaftNode.notLeader L ∈ s.history := by
  obtain ⟨before, after, G⟩ := h
  obtain ⟨thread, timedOut, L, _, hhist⟩ := G.returned
  refine ⟨L, (run_history G.continued).subset ?_⟩
  rw [hhist]
  simp

/-- `proposeResult` fails with `kInvalidArgument` only on a node that does not lead and has not
applied the entry. -/
theorem RaftNode.proposeResult_code {node : RaftNode} {index : Nat} {timedOut : Bool}
    {status : Status} (h : node.proposeResult index timedOut = some status)
    (hcode : status.code = .kInvalidArgument) :
    status = RaftNode.notLeader ∧ node.state ≠ .kLeader ∧
      node.storage.lastAppliedIndex < index := by
  unfold RaftNode.proposeResult at h
  split at h
  · rename_i hwoken
    split at h <;> cases h
    · rename_i hlt
      exact ⟨rfl, hwoken.resolve_left (Nat.not_le.mpr hlt), hlt⟩
    · cases hcode
  · split at h <;> cases h
    cases hcode

/-- A write that gets rejected after an append has just given up, and it is only answered
`kWrongLeader` with an entry when it had been rejected so. -/
theorem Write.step_rejected {raft raft' : RaftNode} {w : Write} {timedOut : Bool}
    {next : Option Write} {events : List Event}
    (h : w.step n raft timedOut = some (raft', next, events)) (e : LogEntry) :
    (∀ w', next = some w' → w'.stage = .rejected (some e) → w.stage = .waiting e ∧
        raft.state ≠ .kLeader ∧ raft.storage.lastAppliedIndex < e.index ∧
        events = [.proposeReturned n e RaftNode.notLeader raft.log.entries]) ∧
      ∀ k resp, Event.answered k (some e) resp ∈ events → resp.status = .kWrongLeader →
        k = n ∧ w.stage = .rejected (some e) := by
  unfold Write.step at h
  split at h
  · split at h <;> cases h <;> simp
  · split at h
    · cases h
      unfold Write.afterPropose
      split
      · simp
      · split <;> simp
    · cases h
      simp
  · rename_i entry hstage
    split at h
    · cases h
    · rename_i status hres
      cases h
      unfold Write.afterPropose
      split
      · refine ⟨by simp, ?_⟩
        intro k resp hmem hst
        simp at hmem
        rw [hmem.2.2] at hst
        cases hst
      · split
        · rename_i hcode
          obtain ⟨rfl, hreplaced, hunapplied⟩ := RaftNode.proposeResult_code hres hcode
          refine ⟨?_, by simp⟩
          rintro w' ⟨⟩ ⟨⟩
          exact ⟨hstage, hreplaced, hunapplied, rfl⟩
        · refine ⟨by simp, ?_⟩
          intro k resp hmem hst
          simp at hmem
          rw [hmem.2.2] at hst
          cases hst
  · rename_i entry hstage
    cases h
    refine ⟨by simp, ?_⟩
    intro k resp hmem _
    simp only [List.mem_singleton, Event.answered.injEq] at hmem
    obtain ⟨rfl, rfl, _⟩ := hmem
    exact ⟨rfl, hstage⟩

theorem step_writeStep {thread : Nat} {timedOut : Bool}
    (h : s.step m (.act n (.writeStep thread timedOut)) = some s') :
    ∃ w raft next events, (s.servers n).writes[thread]? = some w ∧
      w.step n (s.servers n).raft timedOut = some (raft, next, events) ∧
      s' = s.update n
        { s.servers n with raft := raft, writes := putThread (s.servers n).writes thread next }
        none events := by
  simp only [Cluster.step, Cluster.actStep] at h
  split at h
  · split at h
    · cases h
    · split at h
      · cases h
      · cases h
        exact ⟨_, _, _, _, ‹_›, ‹_›, rfl⟩
  · cases h

/-- Where a writing thread comes from that has not moved. -/
def WriteBegun (s : Cluster) (a : Action) (k : NodeId) (w : Write) : Prop :=
  w ∈ (s.servers k).writes ∨
    ∃ op key value, a = .act k (.write op key value) ∧ w = { entry := { op, key, value } }

/-- Every step but a write's own leaves the threads and gives no such answer. -/
theorem move_writes (mv : Move m s a s') (ha : ∀ k thread timedOut,
      a ≠ .act k (.writeStep thread timedOut)) :
    (∀ k, ∀ w ∈ (s'.servers k).writes, WriteBegun s a k w) ∧
      ∀ k e resp, Event.answered k (some e) resp ∈ s'.history →
        Event.answered k (some e) resp ∈ s.history := by
  have same : ∀ {k : NodeId} {srv : Server}, srv.writes = (s.servers k).writes →
      ∀ j, ∀ w ∈ (Function.update s.servers k srv j).writes, WriteBegun s a j w := by
    intro k srv hsrv j w hw
    rcases mem_update (f := Server.writes) hw with ⟨rfl, h⟩ | ⟨_, h⟩
    · exact Or.inl (hsrv ▸ h)
    · exact Or.inl h
  have gone : ∀ {k : NodeId} {srv : Server}, srv.writes = [] →
      ∀ j, ∀ w ∈ (Function.update s.servers k srv j).writes, WriteBegun s a j w := by
    intro k srv hsrv j w hw
    rcases mem_update (f := Server.writes) hw with ⟨rfl, h⟩ | ⟨_, h⟩
    · rw [hsrv] at h; cases h
    · exact Or.inl h
  have none : ∀ k e resp, Event.answered k (some e) resp ∈ s.history ++ [] →
      Event.answered k (some e) resp ∈ s.history := by
    intro k e resp hmem
    rwa [List.append_nil] at hmem
  have silent : ∀ {evs : List Event}, (∀ k e resp, Event.answered k (some e) resp ∉ evs) →
      ∀ k e resp, Event.answered k (some e) resp ∈ s.history ++ evs →
        Event.answered k (some e) resp ∈ s.history := by
    intro evs hevs k e resp hmem
    exact (List.mem_append.mp hmem).resolve_right (hevs k e resp)
  cases mv with
  | tick d => exact ⟨fun k w hw => Or.inl hw, fun _ _ _ hmem => hmem⟩
  | replicateIdle _ => exact ⟨fun k w hw => Or.inl hw, fun _ _ _ hmem => hmem⟩
  | crash _ _ => exact ⟨gone rfl, none⟩
  | restart _ _ _ => exact ⟨gone rfl, none⟩
  | endElection _ _ =>
    refine ⟨same rfl, silent ?_⟩
    intro k e resp
    split <;> simp
  | replicateReply _ _ _ _ _ _ =>
    refine ⟨same rfl, silent ?_⟩
    intro k e resp
    split <;> simp
  | write _ _ =>
    refine ⟨?_, none⟩
    intro k w hw
    rcases mem_update (f := Server.writes) hw with ⟨rfl, h⟩ | ⟨_, h⟩
    · rcases List.mem_append.mp h with h | h
      · exact Or.inl h
      · exact Or.inr ⟨_, _, _, rfl, List.mem_singleton.mp h⟩
    · exact Or.inl h
  | writeStep _ _ _ => exact absurd rfl (ha _ _ _)
  | readStep _ _ hmove =>
    refine ⟨same rfl, silent ?_⟩
    intro k e resp
    cases hmove <;> simp
  | _ => exact ⟨same rfl, none⟩

/-- **A write's own step keeps the invariant**: a thread that is rejected now gives up now. -/
theorem rejectedInv_writeStep (hr : Run m hash crashFree s) (R : RejectedInv m hash s) {k : NodeId}
    {thread : Nat} {timedOut : Bool} (hs : s.step m (.act k (.writeStep thread timedOut)) = some s') :
    RejectedInv m hash s' := by
  have hcrash : crashFree s (.act k (.writeStep thread timedOut)) := trivial
  have kept : ∀ {n e}, GaveUp m hash n e s → GaveUp m hash n e s' := fun h => h.step hcrash hs
  obtain ⟨w, raft, next, events, hw, hstep, hs'⟩ := step_writeStep hs
  refine ⟨?_, ?_⟩
  · intro n w' hw' e hstage
    rw [hs'] at hw'
    rcases mem_update (f := Server.writes) hw' with ⟨rfl, h⟩ | ⟨_, h⟩
    · rcases mem_putThread h with h | h
      · obtain ⟨hwait, hreplaced, hunapplied, hevents⟩ :=
          (Write.step_rejected hstep e).1 w' h hstage
        obtain ⟨_, _, S⟩ := run_simulated hr
        have P := S.writes n w (List.mem_of_getElem? hw) e hwait
        have hhist : s'.history = s.history ++ events := by
          rw [hs']
          rfl
        rw [hevents] at hhist
        exact ⟨s, s', hr, ⟨thread, timedOut, _, hs, hhist⟩, .init, S.history.recorded n _ P.1,
          hreplaced, hunapplied⟩
      · exact kept (R.threads n w' h e hstage)
    · exact kept (R.threads n w' h e hstage)
  · intro n e resp hmem hst
    rw [hs'] at hmem
    rcases List.mem_append.mp hmem with h | h
    · exact kept (R.answers n e resp h hst)
    · obtain ⟨rfl, hstage⟩ := (Write.step_rejected hstep e).2 n resp h hst
      exact kept (R.threads n w (List.mem_of_getElem? hw) e hstage)

theorem rejectedInv_step (hr : Run m hash crashFree s) (R : RejectedInv m hash s)
    (hcrash : crashFree s a) (hs : s.step m a = some s') : RejectedInv m hash s' := by
  by_cases ha : ∃ k thread timedOut, a = .act k (.writeStep thread timedOut)
  · obtain ⟨k, thread, timedOut, rfl⟩ := ha
    exact rejectedInv_writeStep hr R hs
  · obtain ⟨hthreads, hanswers⟩ := move_writes (step_move hs) fun k thread timedOut heq =>
      ha ⟨k, thread, timedOut, heq⟩
    refine ⟨?_, ?_⟩
    · intro n w hw e hstage
      rcases hthreads n w hw with h | ⟨_, _, _, _, rfl⟩
      · exact (R.threads n w h e hstage).step hcrash hs
      · cases hstage
    · intro n e resp hmem hst
      exact (R.answers n e resp (hanswers n e resp hmem) hst).step hcrash hs

theorem run_rejectedInv (hr : Run m hash crashFree s) : RejectedInv m hash s := by
  induction hr with
  | init => exact ⟨fun _ w hw => (by cases hw), fun _ _ _ hmem => (by cases hmem)⟩
  | step hr hcrash hs ih => exact rejectedInv_step hr ih hcrash hs

end Answers

/-! ## Results -/

/-- **What `kWrongLeader` says to a writer**: nothing was appended, or the entry was appended and
`Propose` gave it up on a node that had been elected in its term, did not lead any more and had not
applied it; then it is applied no more from the moment on when it is in no log, no request to be
delivered and no store. -/
theorem wrong_leader_answer {m : Membership} {hash : Bytes → Nat} {s : Cluster}
    (hr : Run m hash crashFree s) {n : NodeId} {entry : Option LogEntry} {resp : ClientResponse}
    (hmem : Event.answered n entry resp ∈ s.history) (hst : resp.status = .kWrongLeader) :
    entry = none ∨ ∃ e, entry = some e ∧ GaveUp m hash n e s ∧
      (Gone m e s → ∀ t, Runs.Run (step m) s crashFree t →
        ∀ k ∈ m.ids, e ∉ (t.servers k).raft.storage.applied) := by
  cases entry with
  | none => exact Or.inl rfl
  | some e =>
    have hgave := (run_rejectedInv hr).answers n e resp hmem hst
    refine Or.inr ⟨e, rfl, hgave, ?_⟩
    intro G t ht
    obtain ⟨L, hL⟩ := hgave.recorded
    exact (gone_run hr hL G ht).stores

/-- Node 1 leads term 1 and appends an entry that nobody receives; node 2 asks it for its vote,
which ends its leadership, and is elected in term 2 by node 3.  The write on node 1 is rejected,
and node 2's first entry replaces the one it has left. -/
def rejectedThenReplaced : List Action :=
  electFirst ++ startSet 1 [97] [49] ++
    [.act 2 .startElection, .act 2 .callVoter, .deliver 2, .act 2 .voteReply, .act 2 .callVoter,
      .deliver 3, .act 2 .voteReply, .act 2 .endElection, .act 1 (.writeStep 0 false),
      .act 1 (.writeStep 0 false)] ++
    startSet 2 [98] [50] ++ [.act 2 (.replicate 1), .deliver 4]

theorem wrong_leader_answer_replaced :
    ∃ s, Run Membership.trio (fun _ => 0) crashFree s ∧
      Event.answered 1 (some firstEntry) { status := .kWrongLeader } ∈ s.history ∧
      GaveUp Membership.trio (fun _ => 0) 1 firstEntry s ∧
      ∀ t, Runs.Run (step Membership.trio) s crashFree t →
        ∀ k ∈ Membership.trio.ids, firstEntry ∉ (t.servers k).raft.storage.applied := by
  obtain ⟨s, hr, hs⟩ : ∃ s, Run Membership.trio (fun _ => 0) crashFree s ∧
      decide (Event.answered 1 (some firstEntry) { status := .kWrongLeader } ∈ s.history ∧
        (∀ k ∈ Membership.trio.ids, firstEntry ∉ (s.servers k).raft.log.entries) ∧
        (∀ i ∈ s.inFlight, ∀ r ∈ s.rpcs[i]?, firstEntry ∉ r.req.entries) ∧
        ∀ k ∈ Membership.trio.ids, firstEntry ∉ (s.servers k).raft.storage.applied) = true :=
    exists_run rejectedThenReplaced (by decide +kernel)
  obtain ⟨hmem, hlogs, hrequests, hstores⟩ := of_decide_eq_true hs
  rcases wrong_leader_answer hr hmem rfl with h | ⟨e, he, hgave, hgone⟩
  · cases h
  · cases he
    exact ⟨s, hr, hmem, hgave, hgone ⟨hlogs, hrequests, hstores⟩⟩

/-- Node 1 leads term 1 and its entry has reached node 2, which asks it for its vote and is elected
in term 2.  The write on node 1 is rejected; then node 2 commits its own first entry and with it
the rejected one. -/
def rejectedThenCommitted : List Action :=
  electFirst ++ startSet 1 [97] [49] ++
    [.act 1 (.replicate 2), .deliver 2, .act 2 .startElection, .act 2 .callVoter, .deliver 3,
      .act 2 .voteReply, .act 2 .callVoter, .act 2 .voteLost, .act 2 .endElection,
      .act 1 (.writeStep 0 false), .act 1 (.writeStep 0 false)] ++
    startSet 2 [98] [50] ++ [.act 2 (.replicate 1), .deliver 5, .act 2 (.replicateReply 5)]

/-- **A write that was answered with `kWrongLeader` can still be executed.** -/
theorem rejected_write_applied :
    ¬ ∀ (m : Membership) (hash : Bytes → Nat) (s : Cluster), Run m hash crashFree s →
      ∀ (n k : NodeId) (e : LogEntry) (resp : ClientResponse),
        Event.answered n (some e) resp ∈ s.history → resp.status = .kWrongLeader →
        e ∉ (s.servers k).raft.storage.applied := by
  intro hall
  obtain ⟨s, hr, hs⟩ : ∃ s, Run Membership.trio (fun _ => 0) crashFree s ∧
      decide (Event.answered 1 (some firstEntry) { status := .kWrongLeader } ∈ s.history ∧
        firstEntry ∈ (s.servers 2).raft.storage.applied) = true :=
    exists_run rejectedThenCommitted (by decide +kernel)
  obtain ⟨hmem, happlied⟩ := of_decide_eq_true hs
  exact hall _ _ s hr 1 2 firstEntry _ hmem rfl happlied

end NeuralKV
