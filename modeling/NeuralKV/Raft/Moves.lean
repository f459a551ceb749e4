import NeuralKV.Raft.Cluster

/-!
# What one step of the cluster can do

`Move m s a s'` lists the ways an action `a` can lead from `s` to `s'`, one constructor for each
lock scope, with the guards under which the scope runs; `WriteMove` and `ReadMove` do the same
for one step of a client's thread.  `step_move`, `Write.step_move` and `Read.step_move` are the
inversions of the step functions; every invariant of the cluster is proved by cases on these and
never unfolds a step function again.  `move_events` and `move_reads` tell where the events and the
reading threads of the new state come from.
-/

set_option autoImplicit false

namespace NeuralKV

namespace Cluster

/-- Process `n` with its node replaced. -/
def withRaft (s : Cluster) (n : NodeId) (raft : RaftNode) : Server :=
  { s.servers n with raft := raft }

/-- The callee of `rpc` has handled it and answered. -/
def answer (s : Cluster) (n : NodeId) (raft : RaftNode) (rpc : Nat) (resp : Response) : Cluster :=
  { s.update n (s.withRaft n raft) with
    inFlight := s.inFlight.erase rpc
    replies := s.replies ++ [(rpc, resp)] }

/-- The answer a reading thread waits for, if there is one. -/
def readReply (s : Cluster) (r : Read) : Option AppendEntriesResponse :=
  match r.stage with
  | .round _ _ _ _ (some (_, rpc)) => s.appendReplyTo rpc
  | _ => none

end Cluster

/-! ## Client threads -/

/-- The steps of a write. -/
inductive WriteMove (n : NodeId) (raft : RaftNode) (w : Write) :
    RaftNode → Option Write → List Event → Prop where
  | passed {next : Option Write} {events : List Event}
      (hnext : ∀ w', next = some w' → ∀ e, w'.stage ≠ .waiting e)
      (hevents : ∀ ev ∈ events, ∃ e resp, ev = .answered n e resp) :
      WriteMove n raft w raft next events
  | proposed {entry : LogEntry} (hstage : w.stage = .leaderSeen) (hlead : raft.state = .kLeader)
      (hentry : entry =
        { w.entry with term := raft.currentTerm, index := raft.log.wal.lastIndex + 1 }) :
      WriteMove n raft w { raft with log := raft.log.append entry }
        (some { w with stage := .waiting entry }) [.proposed n entry]
  | returned {entry : LogEntry} {timedOut : Bool} {status : Status} {next : Option Write}
      {events : List Event} (hstage : w.stage = .waiting entry)
      (hres : raft.proposeResult entry.index timedOut = some status)
      (hnext : ∀ w', next = some w' → ∀ e, w'.stage ≠ .waiting e)
      (hevents : ∀ ev ∈ events, ∃ e resp, ev = .answered n e resp) :
      WriteMove n raft w raft next
        (.proposeReturned n entry status raft.log.entries :: events)

theorem Write.afterPropose_quiet (n : NodeId) (w : Write) (e : Option LogEntry) (status : Status) :
    (∀ w', (w.afterPropose n e status).1 = some w' → ∀ e', w'.stage ≠ .waiting e') ∧
      ∀ ev ∈ (w.afterPropose n e status).2, ∃ e' resp, ev = .answered n e' resp := by
  unfold Write.afterPropose
  split
  · simp
  · split
    · simp
    · simp

theorem Write.step_move {n : NodeId} {raft raft' : RaftNode} {w : Write} {timedOut : Bool}
    {next : Option Write} {events : List Event}
    (h : w.step n raft timedOut = some (raft', next, events)) :
    WriteMove n raft w raft' next events := by
  unfold Write.step at h
  split at h
  · split at h <;> cases h <;> exact .passed (by simp) (by simp)
  · rename_i hstage
    split at h
    · cases h
      obtain ⟨h₁, h₂⟩ := w.afterPropose_quiet n none ‹_›
      exact .passed h₁ h₂
    · rename_i hp
      cases h
      unfold RaftNode.proposeAppend at hp
      split at hp
      · cases hp
      · rename_i hl
        cases hp
        exact .proposed hstage (by simpa using hl) rfl
  · rename_i entry hstage
    split at h
    · cases h
    · rename_i status hres
      cases h
      obtain ⟨h₁, h₂⟩ := w.afterPropose_quiet n (some entry) status
      exact .returned hstage hres h₁ h₂
  · cases h
    exact .passed (by simp) (by simp)

/-- The steps of a GET. -/
inductive ReadMove (config : ClusterConfig) (raft : RaftNode) (r : Read) (now pos nextRpc : Nat)
    (reply : Option AppendEntriesResponse) : ReadOutcome → Prop where
  | passed {stage : ReadStage} (hstage : stage = .leaderSeen ∨ stage = .rejected) :
      ReadMove config raft r now pos nextRpc reply
        { raft := raft, thread := some { r with stage := stage } }
  | recent (hstage : r.stage = .leaderSeen)
      (hrecent : raft.hasRecentMajorityContact config now = true) :
      ReadMove config raft r now pos nextRpc reply
        { raft := raft
          thread := some { r with stage := .confirmed pos false }
          events := [.confirmed config.localNodeId raft.currentTerm pos false] }
  | begun (hstage : r.stage = .leaderSeen) (hlead : raft.state = .kLeader)
      (hrecent : raft.hasRecentMajorityContact config now = false) :
      ReadMove config raft r now pos nextRpc reply
        { raft := raft
          thread := some
            { r with stage := .round raft.currentTerm pos 1 config.otherPeers none } }
  | confirmed {term start acks : Nat} (hstage : r.stage = .round term start acks [] none)
      (hmaj : config.majority ≤ acks) :
      ReadMove config raft r now pos nextRpc reply
        { raft := raft
          thread := some { r with stage := .confirmed start true }
          events := [.confirmed config.localNodeId term start true] }
  | sent {term start acks : Nat} {peer : NodeId} {todo : List NodeId}
      {req : AppendEntriesRequest} (hstage : r.stage = .round term start acks (peer :: todo) none)
      (hreq : raft.confirmRequest config term peer = some req) :
      ReadMove config raft r now pos nextRpc reply
        { raft := raft
          thread := some { r with stage := .round term start acks todo (some (peer, nextRpc)) }
          send := some (peer, req) }
  | lost {term start acks rpc : Nat} {peer : NodeId} {todo : List NodeId}
      {resp : AppendEntriesResponse} (hstage : r.stage = .round term start acks todo (some (peer, rpc)))
      (hreply : reply = some resp)
      (hres : (raft.confirmReply term acks peer resp now).2 = none) :
      ReadMove config raft r now pos nextRpc reply
        { raft := (raft.confirmReply term acks peer resp now).1
          thread := some { r with stage := .rejected } }
  | counted {term start acks acks' rpc : Nat} {peer : NodeId} {todo : List NodeId}
      {resp : AppendEntriesResponse} (hstage : r.stage = .round term start acks todo (some (peer, rpc)))
      (hreply : reply = some resp)
      (hres : (raft.confirmReply term acks peer resp now).2 = some acks') :
      ReadMove config raft r now pos nextRpc reply
        { raft := (raft.confirmReply term acks peer resp now).1
          thread := some { r with stage := .round term start acks' todo none } }
  | done {start : Nat} {full : Bool} (hstage : r.stage = .confirmed start full) :
      ReadMove config raft r now pos nextRpc reply
        { raft := raft
          thread := none
          events := [.readDone config.localNodeId r.key r.invokedAt start full
            raft.storage.lastAppliedIndex (getResponse raft.storage.kv r.key)] }
  | refused (hstage : r.stage = .rejected) :
      ReadMove config raft r now pos nextRpc reply
        { raft := raft
          thread := none
          events := [.answered config.localNodeId none
            { status := .kWrongLeader, leaderHint := raft.leaderId }] }

theorem Read.step_move {config : ClusterConfig} {raft : RaftNode} {r : Read} {now pos nextRpc : Nat}
    {reply : Option AppendEntriesResponse} {out : ReadOutcome}
    (h : r.step config raft now pos nextRpc reply = some out) :
    ReadMove config raft r now pos nextRpc reply out := by
  unfold Read.step at h
  simp only at h
  split at h
  · split at h <;> cases h
    · exact .passed (Or.inl rfl)
    · exact .passed (Or.inr rfl)
  · rename_i hstage
    unfold RaftNode.beginConfirm at h
    by_cases hl : raft.state = .kLeader
    · by_cases hrec : raft.hasRecentMajorityContact config now = true
      · simp only [hl, hrec, ne_eq, not_true_eq_false, if_false, if_true] at h
        cases h
        exact .recent hstage hrec
      · simp only [hl, hrec, ne_eq, not_true_eq_false, if_false] at h
        cases h
        exact .begun hstage hl (by simpa using hrec)
    · simp only [hl, ne_eq, not_false_eq_true, if_true] at h
      cases h
      exact .passed (Or.inr rfl)
  · rename_i hstage
    split at h <;> cases h
    · exact .confirmed hstage ‹_›
    · exact .passed (Or.inr rfl)
  · rename_i hstage
    split at h <;> cases h
    · exact .passed (Or.inr rfl)
    · exact .sent hstage ‹_›
  · rename_i hstage
    split at h
    · cases h
    · split at h <;> cases h
      · exact .lost hstage rfl ‹_›
      · exact .counted hstage rfl ‹_›
  · cases h
    exact .done ‹_›
  · cases h
    exact .refused ‹_›

/-! ## The cluster -/

open Cluster
open Runs (putThread mem_putThread)

/-- The steps of the cluster, by lock scope. -/
inductive Move (m : Membership) (s : Cluster) : Action → Cluster → Prop where
  | tick (d : Nat) : Move m s (.tick d) { s with clock := s.clock + d }
  | requestVote {rpc : Nat} {r : Rpc} {req : RequestVoteRequest} (hin : rpc ∈ s.inFlight)
      (hr : s.rpcs[rpc]? = some r) (hreq : r.req = .requestVote req)
      (hup : (s.servers r.callee).up = true) :
      Move m s (.deliver rpc)
        (s.answer r.callee ((s.servers r.callee).raft.handleRequestVote req).1 rpc
          (.requestVote ((s.servers r.callee).raft.handleRequestVote req).2))
  | appendEntries {rpc : Nat} {r : Rpc} {req : AppendEntriesRequest} (hin : rpc ∈ s.inFlight)
      (hr : s.rpcs[rpc]? = some r) (hreq : r.req = .appendEntries req)
      (hup : (s.servers r.callee).up = true) :
      Move m s (.deliver rpc)
        (s.answer r.callee ((s.servers r.callee).raft.handleAppendEntries req).1 rpc
          (.appendEntries ((s.servers r.callee).raft.handleAppendEntries req).2))
  | crash {n : NodeId} (hn : n ∈ m.ids) (hup : (s.servers n).up = true) :
      Move m s (.act n .crash) (s.update n { up := false, raft := (s.servers n).raft })
  | restart {n : NodeId} {raft : RaftNode} (hn : n ∈ m.ids) (hup : (s.servers n).up = false)
      (hr : (s.servers n).raft.restart = some raft) :
      Move m s (.act n .restart) (s.update n { raft := raft })
  | startElection {n : NodeId} (hn : n ∈ m.ids) (hup : (s.servers n).up = true)
      (he : (s.servers n).election = none) :
      Move m s (.act n .startElection)
        (s.update n
          { s.servers n with
            raft := ((s.servers n).raft.startElection (m.configOf n)).1
            election := some
              { req := ((s.servers n).raft.startElection (m.configOf n)).2
                votes := 1
                todo := (m.configOf n).otherPeers } })
  | callVoter {n peer : NodeId} {req : RequestVoteRequest} {votes : Nat} {todo : List NodeId}
      (hn : n ∈ m.ids) (he : (s.servers n).election = some ⟨req, votes, peer :: todo, none⟩) :
      Move m s (.act n .callVoter)
        (s.update n
          { s.servers n with election := some ⟨req, votes, todo, some s.rpcs.length⟩ }
          (some (peer, .requestVote req)))
  | voteLost {n : NodeId} {req : RequestVoteRequest} {votes rpc : Nat} {todo : List NodeId}
      (hn : n ∈ m.ids) (he : (s.servers n).election = some ⟨req, votes, todo, some rpc⟩) :
      Move m s (.act n .voteLost)
        (s.update n { s.servers n with election := some ⟨req, votes, todo, none⟩ })
  | voteReply {n : NodeId} {req : RequestVoteRequest} {votes rpc : Nat} {todo : List NodeId}
      {resp : RequestVoteResponse} (hn : n ∈ m.ids)
      (he : (s.servers n).election = some ⟨req, votes, todo, some rpc⟩)
      (hresp : s.voteReplyTo rpc = some resp) :
      Move m s (.act n .voteReply)
        (s.update n
          { s.servers n with
            raft := ((s.servers n).raft.voteReply req.term votes resp).1
            election := ((s.servers n).raft.voteReply req.term votes resp).2.map
              fun votes => ⟨req, votes, todo, none⟩ })
  | endElection {n : NodeId} {req : RequestVoteRequest} {votes : Nat} (hn : n ∈ m.ids)
      (he : (s.servers n).election = some ⟨req, votes, [], none⟩) :
      Move m s (.act n .endElection)
        (s.update n
          { s.servers n with
            raft := ((s.servers n).raft.finishElection (m.configOf n) req.term votes).1
            election := none }
          none
          (if ((s.servers n).raft.finishElection (m.configOf n) req.term votes).2 then
            [.becameLeader n req.term (s.servers n).raft.log.entries] else []))
  | replicateIdle {n peer : NodeId} (hn : n ∈ m.ids) : Move m s (.act n (.replicate peer)) s
  | replicate {n peer : NodeId} {req : AppendEntriesRequest} (hn : n ∈ m.ids)
      (hup : (s.servers n).up = true) (hpeer : peer ∈ (m.configOf n).otherPeers)
      (hreq : (s.servers n).raft.replicateRequest (m.configOf n) peer = some req) :
      Move m s (.act n (.replicate peer))
        (s.update n
          { s.servers n with replications := (s.servers n).replications ++ [s.rpcs.length] }
          (some (peer, .appendEntries req)))
  | replicateReply {n : NodeId} {rpc : Nat} {r : Rpc} {req : AppendEntriesRequest}
      {resp : AppendEntriesResponse} {raft : RaftNode} (hn : n ∈ m.ids)
      (hrpc : rpc ∈ (s.servers n).replications) (hr : s.rpcs[rpc]? = some r)
      (hreq : r.req = .appendEntries req) (hresp : s.appendReplyTo rpc = some resp)
      (hraft : raft =
        (s.servers n).raft.replicateReply req.term req.entries r.callee resp s.clock) :
      Move m s (.act n (.replicateReply rpc))
        (s.update n
          { s.servers n with
            raft := raft, replications := (s.servers n).replications.erase rpc }
          none
          (if raft.commitIndex = (s.servers n).raft.commitIndex then []
            else [.advanced n (s.servers n).raft.currentTerm raft.commitIndex
              (s.servers n).raft.log.entries]))
  | write {n : NodeId} {op : WalOp} {key value : Bytes} (hn : n ∈ m.ids)
      (hup : (s.servers n).up = true) :
      Move m s (.act n (.write op key value))
        (s.update n
          { s.servers n with
            writes := (s.servers n).writes ++ [{ entry := { op, key, value } }] })
  | writeStep {n : NodeId} {thread : Nat} {timedOut : Bool} {w : Write} {raft : RaftNode}
      {next : Option Write} {events : List Event} (hn : n ∈ m.ids)
      (hw : (s.servers n).writes[thread]? = some w)
      (hmove : WriteMove n (s.servers n).raft w raft next events) :
      Move m s (.act n (.writeStep thread timedOut))
        (s.update n
          { s.servers n with
            raft := raft, writes := putThread (s.servers n).writes thread next }
          none events)
  | read {n : NodeId} {key : Bytes} (hn : n ∈ m.ids) (hup : (s.servers n).up = true) :
      Move m s (.act n (.read key))
        (s.update n
          { s.servers n with
            reads := (s.servers n).reads ++ [{ key, invokedAt := s.history.length }] })
  | readStep {n : NodeId} {thread : Nat} {r : Read} {out : ReadOutcome} (hn : n ∈ m.ids)
      (hrd : (s.servers n).reads[thread]? = some r)
      (hmove : ReadMove (m.configOf n) (s.servers n).raft r s.clock s.history.length s.rpcs.length
        (s.readReply r) out) :
      Move m s (.act n (.readStep thread))
        (s.update n
          { s.servers n with
            raft := out.raft, reads := putThread (s.servers n).reads thread out.thread }
          (out.send.map fun p => (p.1, .appendEntries p.2)) out.events)
  | readLost {n : NodeId} {thread : Nat} {r : Read} {term start acks : Nat} {todo : List NodeId}
      {waiting : NodeId × Nat} (hn : n ∈ m.ids) (hrd : (s.servers n).reads[thread]? = some r)
      (hstage : r.stage = .round term start acks todo (some waiting)) :
      Move m s (.act n (.readLost thread))
        (s.update n
          { s.servers n with
            reads := (s.servers n).reads.set thread
              { r with stage := .round term start acks todo none } })

theorem deliver_move {m : Membership} {s s' : Cluster} {rpc : Nat} (h : s.deliver rpc = some s') :
    Move m s (.deliver rpc) s' := by
  unfold deliver at h
  split at h
  · rename_i hin
    split at h
    · cases h
    · rename_i r hr
      simp only at h
      split at h
      · rename_i hup
        cases hreq : r.req with
        | requestVote req =>
          rw [hreq] at h
          cases h
          exact .requestVote hin hr hreq hup
        | appendEntries req =>
          rw [hreq] at h
          cases h
          exact .appendEntries hin hr hreq hup
      · cases h
  · cases h

theorem actStep_move {m : Membership} {s s' : Cluster} {n : NodeId} {a : ServerAction}
    (hn : n ∈ m.ids) (h : s.actStep m n a = some s') : Move m s (.act n a) s' := by
  cases a with
  | crash =>
    simp only [actStep] at h
    split at h
    · cases h; exact .crash hn ‹_›
    · cases h
  | restart =>
    simp only [actStep] at h
    split at h
    · cases h
    · split at h
      · cases h
      · cases h; exact .restart hn (by simpa using ‹¬ (s.servers n).up = true›) ‹_›
  | startElection =>
    simp only [actStep] at h
    split at h
    · rename_i hg; cases h; exact .startElection hn hg.1 hg.2
    · cases h
  | callVoter =>
    simp only [actStep] at h
    split at h
    · cases h; exact .callVoter hn ‹_›
    · cases h
  | voteLost =>
    simp only [actStep] at h
    split at h
    · cases h; exact .voteLost hn ‹_›
    · cases h
  | voteReply =>
    simp only [actStep] at h
    split at h
    · split at h
      · cases h
      · cases h; exact .voteReply hn ‹_› ‹_›
    · cases h
  | endElection =>
    simp only [actStep] at h
    split at h
    · cases h; exact .endElection hn ‹_›
    · cases h
  | replicate peer =>
    simp only [actStep] at h
    split at h
    · rename_i hg
      split at h
      · cases h; exact .replicateIdle hn
      · split at h
        · cases h; exact .replicateIdle hn
        · cases h; exact .replicate hn hg.1 hg.2 ‹_›
    · cases h
  | replicateReply rpc =>
    simp only [actStep] at h
    split at h
    · rename_i hrpc
      split at h
      · rename_i hr hresp
        cases h
        exact .replicateReply hn hrpc hr rfl hresp rfl
      · cases h
    · cases h
  | write op key value =>
    simp only [actStep] at h
    split at h
    · cases h; exact .write hn ‹_›
    · cases h
  | writeStep thread timedOut =>
    simp only [actStep] at h
    split at h
    · cases h
    · split at h
      · cases h
      · cases h; exact .writeStep hn ‹_› (Write.step_move ‹_›)
  | read key =>
    simp only [actStep] at h
    split at h
    · cases h; exact .read hn ‹_›
    · cases h
  | readStep thread =>
    simp only [actStep] at h
    split at h
    · cases h
    · split at h
      · cases h
      · cases h; exact .readStep hn ‹_› (Read.step_move ‹_›)
  | readLost thread =>
    simp only [actStep] at h
    split at h
    · rename_i hrd; cases h; exact .readLost hn hrd rfl
    · cases h

/-- **Inversion of the step function.** -/
theorem step_move {m : Membership} {s s' : Cluster} {a : Action} (h : s.step m a = some s') :
    Move m s a s' := by
  cases a with
  | tick d => cases h; exact .tick d
  | deliver rpc => exact deliver_move h
  | act n a =>
    simp only [step] at h
    split at h
    · exact actStep_move ‹_› h
    · cases h

/-! ## Where events and reading threads come from -/

/-- The step that records an event of the client side. -/
def EventCause (m : Membership) (s : Cluster) (a : Action) : Event → Prop
  | .proposeReturned n e status L =>
    ∃ thread timedOut w, a = .act n (.writeStep thread timedOut) ∧
      (s.servers n).writes[thread]? = some w ∧ w.stage = .waiting e ∧
      L = (s.servers n).raft.log.entries ∧
      ∃ t, (s.servers n).raft.proposeResult e.index t = some status
  | .confirmed n T start false =>
    ∃ thread rd, a = .act n (.readStep thread) ∧ (s.servers n).reads[thread]? = some rd ∧
      rd.stage = .leaderSeen ∧
      (s.servers n).raft.hasRecentMajorityContact (m.configOf n) s.clock = true ∧
      T = (s.servers n).raft.currentTerm ∧ start = s.history.length
  | .readDone n key invokedAt start full lastApplied resp =>
    ∃ thread rd, a = .act n (.readStep thread) ∧ (s.servers n).reads[thread]? = some rd ∧
      rd.stage = .confirmed start full ∧ key = rd.key ∧ invokedAt = rd.invokedAt ∧
      lastApplied = (s.servers n).raft.storage.lastAppliedIndex ∧
      resp = getResponse (s.servers n).raft.storage.kv rd.key
  | _ => True

theorem answered_cause {m : Membership} {s : Cluster} {a : Action} {n : NodeId}
    {events : List Event} (hevents : ∀ ev ∈ events, ∃ e resp, ev = .answered n e resp) :
    ∀ ev ∈ events, EventCause m s a ev := by
  intro ev hev
  obtain ⟨e, resp, rfl⟩ := hevents ev hev
  trivial

/-- **Every new event has its cause.** -/
theorem move_events {m : Membership} {s s' : Cluster} {a : Action} (mv : Move m s a s') :
    ∃ evs, s'.history = s.history ++ evs ∧ ∀ ev ∈ evs, EventCause m s a ev := by
  have none : s.history = s.history ++ [] ∧ ∀ ev ∈ ([] : List Event), EventCause m s a ev :=
    ⟨(List.append_nil _).symm, fun _ hev => by cases hev⟩
  have one : ∀ {ev : Event}, EventCause m s a ev → ∀ ev' ∈ [ev], EventCause m s a ev' := by
    intro ev h ev' hev'
    obtain rfl := List.mem_singleton.mp hev'
    exact h
  cases mv with
  | tick d => exact ⟨[], none⟩
  | replicateIdle _ => exact ⟨[], none⟩
  | endElection _ _ =>
    refine ⟨_, rfl, ?_⟩
    split
    · exact one trivial
    · exact none.2
  | replicateReply _ _ _ _ _ _ =>
    refine ⟨_, rfl, ?_⟩
    split
    · exact none.2
    · exact one trivial
  | writeStep _ hw hmove =>
    refine ⟨_, rfl, ?_⟩
    cases hmove with
    | passed _ hevents => exact answered_cause hevents
    | proposed _ _ _ => exact one trivial
    | returned hstage hres _ hevents =>
      exact List.forall_mem_cons.mpr
        ⟨⟨_, _, _, rfl, hw, hstage, rfl, _, hres⟩, answered_cause hevents⟩
  | readStep _ hrd hmove =>
    refine ⟨_, rfl, ?_⟩
    cases hmove with
    | recent hstage hrecent => exact one ⟨_, _, rfl, hrd, hstage, hrecent, rfl, rfl⟩
    | confirmed _ _ => exact one trivial
    | @done start full hstage =>
      cases full with
      | true => exact one ⟨_, _, rfl, hrd, hstage, rfl, rfl, rfl, rfl⟩
      | false => exact one ⟨_, _, rfl, hrd, hstage, rfl, rfl, rfl, rfl⟩
    | refused _ => exact one trivial
    | _ => exact none.2
  | _ => exact ⟨[], rfl, none.2⟩

/-- Where a reading thread of the new state comes from. -/
inductive ReadCause (m : Membership) (s : Cluster) (a : Action) (k : NodeId) : Read → Prop where
  | kept {rd : Read} (hrd : rd ∈ (s.servers k).reads) (ha : a ≠ .act k .restart) :
      ReadCause m s a k rd
  | invoked {key : Bytes} (ha : a = .act k (.read key)) :
      ReadCause m s a k { key, invokedAt := s.history.length }
  | moved {thread : Nat} {rd rd' : Read} {out : ReadOutcome} (ha : a = .act k (.readStep thread))
      (hrd : (s.servers k).reads[thread]? = some rd)
      (hmove : ReadMove (m.configOf k) (s.servers k).raft rd s.clock s.history.length s.rpcs.length
        (s.readReply rd) out) (hnext : out.thread = some rd') : ReadCause m s a k rd'
  | lost {thread : Nat} {rd : Read} {term start acks : Nat} {todo : List NodeId}
      {waiting : NodeId × Nat} (ha : a = .act k (.readLost thread))
      (hrd : rd ∈ (s.servers k).reads)
      (hstage : rd.stage = .round term start acks todo (some waiting)) :
      ReadCause m s a k { rd with stage := .round term start acks todo none }

/-- **Every reading thread of the new state has its cause.** -/
theorem move_reads {m : Membership} {s s' : Cluster} {a : Action} (mv : Move m s a s') :
    ∀ k, ∀ rd ∈ (s'.servers k).reads, ReadCause m s a k rd := by
  -- the process that moves keeps its reading threads
  have same : ∀ {n : NodeId} {srv : Server}, srv.reads = (s.servers n).reads →
      (∀ k, a ≠ .act k .restart) →
      ∀ k, ∀ rd ∈ (Function.update s.servers n srv k).reads, ReadCause m s a k rd := by
    intro n srv hsrv ha k rd hrd
    rcases mem_update (f := Server.reads) hrd with ⟨rfl, h⟩ | ⟨_, h⟩
    · exact .kept (hsrv ▸ h) (ha k)
    · exact .kept h (ha k)
  -- the process that moves loses them
  have gone : ∀ {n : NodeId} {srv : Server}, srv.reads = [] →
      (∀ k, k ≠ n → a ≠ .act k .restart) →
      ∀ k, ∀ rd ∈ (Function.update s.servers n srv k).reads, ReadCause m s a k rd := by
    intro n srv hsrv ha k rd hrd
    rcases mem_update (f := Server.reads) hrd with ⟨rfl, h⟩ | ⟨hk, h⟩
    · rw [hsrv] at h; cases h
    · exact .kept h (ha k hk)
  cases mv with
  | tick d => exact fun k rd hrd => .kept hrd (by simp)
  | replicateIdle _ => exact fun k rd hrd => .kept hrd (by simp)
  | crash _ _ => exact gone rfl (by simp)
  | restart _ _ _ => exact gone rfl (by simp [eq_comm])
  | read _ _ =>
    intro k rd hrd
    rcases mem_update (f := Server.reads) hrd with ⟨rfl, h⟩ | ⟨_, h⟩
    · rcases List.mem_append.mp h with h | h
      · exact .kept h (by simp)
      · obtain rfl := List.mem_singleton.mp h
        exact .invoked rfl
    · exact .kept h (by simp)
  | readStep _ hrd hmove =>
    intro k rd' hrd'
    rcases mem_update (f := Server.reads) hrd' with ⟨rfl, h⟩ | ⟨_, h⟩
    · rcases mem_putThread h with h | h
      · exact .moved rfl hrd hmove h
      · exact .kept h (by simp)
    · exact .kept h (by simp)
  | readLost _ hrd hstage =>
    intro k rd' hrd'
    rcases mem_update (f := Server.reads) hrd' with ⟨rfl, h⟩ | ⟨_, h⟩
    · rcases List.mem_or_eq_of_mem_set h with h | rfl
      · exact .kept h (by simp)
      · exact .lost rfl (List.mem_of_getElem? hrd) hstage
    · exact .kept h (by simp)
  | _ => exact same rfl (by simp)

end NeuralKV
