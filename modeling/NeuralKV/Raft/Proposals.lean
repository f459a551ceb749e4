import NeuralKV.Raft.Commit
import NeuralKV.Raft.Safety

/-!
# Acknowledged writes

`Propose` returns `Ok` when it wakes up and finds `last_applied_index() >= index`.  It does not
look at its term again: if the node has lost its leadership in between, the entry at that index
may be another leader's.

* `lost_write_acknowledged` — a crash-free run in which `Propose` returns `Ok` for an entry that
  its own log no longer contains.
* `acknowledged_write_committed` — in every crash-free run in which `Propose` returns `Ok` only
  while the node is still in the term of the entry, the entry is in the node's log at that moment
  and in the log of every leader of a later term.

`AppliedInv` is the invariant behind it: what a node has applied, some leader has committed; and
what the leader of the node's current term has applied beyond the log it was elected with, it has
committed in its own term.
-/

set_option autoImplicit false

namespace NeuralKV

open Consensus Cluster
open Runs (anyStep exists_run)

/-! ## The condition -/

/-- No crash, and `Propose` returns `Ok` only in the term in which it appended its entry. -/
def ackedInTerm (s : Cluster) : Action → Prop
  | .act n (.writeStep thread _) =>
    match (s.servers n).writes[thread]? with
    | some ⟨_, .waiting entry⟩ =>
      entry.index ≤ (s.servers n).raft.storage.lastAppliedIndex →
        (s.servers n).raft.currentTerm = entry.term
    | _ => True
  | a => crashFree s a

instance (s : Cluster) (a : Action) : Decidable (ackedInTerm s a) := by
  unfold ackedInTerm
  split
  · split <;> infer_instance
  · infer_instance

theorem ackedInTerm_crashFree {s : Cluster} {a : Action} (h : ackedInTerm s a) : crashFree s a := by
  unfold ackedInTerm at h
  split at h
  · trivial
  · exact h

theorem ackedInTerm_writeStep {s : Cluster} {n : NodeId} {thread : Nat} {timedOut : Bool}
    {w : Write} {e : LogEntry} (h : ackedInTerm s (.act n (.writeStep thread timedOut)))
    (hw : (s.servers n).writes[thread]? = some w) (hstage : w.stage = .waiting e)
    (hle : e.index ≤ (s.servers n).raft.storage.lastAppliedIndex) :
    (s.servers n).raft.currentTerm = e.term := by
  obtain ⟨entry, stage⟩ := w
  cases hstage
  simp only [ackedInTerm, hw] at h
  exact h hle

/-! ## What has been applied -/

theorem Backed.max {hist : List Event} {T a b : Nat} (ha : Backed hist T a)
    (hb : Backed hist T b) : Backed hist T (max a b) := by
  rcases Nat.le_total a b with h | h
  · rw [Nat.max_eq_right h]; exact hb
  · rw [Nat.max_eq_left h]; exact ha

structure AppliedInv (s : Cluster) : Prop where
  backed : ∀ n, Backed s.history (s.servers n).raft.currentTerm
    (s.servers n).raft.storage.lastAppliedIndex
  leading : ∀ n L, Event.becameLeader n (s.servers n).raft.currentTerm L ∈ s.history →
    (s.servers n).raft.storage.lastAppliedIndex ≤ L.length ∨
      ∃ N L', Event.advanced n (s.servers n).raft.currentTerm N L' ∈ s.history ∧
        (s.servers n).raft.storage.lastAppliedIndex ≤ N

section Preservation

variable {m : Membership} {h : Hist} {s : Cluster} {a : Action} {n : NodeId} {r' : RaftNode}
  {evs : List Event}

theorem applied_backed_effect (I : HInv m h) (S : Sim m h s) (C : CommitInv s) (A : AppliedInv s)
    (hcrash : crashFree s a) (E : Effect m s a n r' evs) :
    Backed (s.history ++ evs) r'.currentTerm r'.storage.lastAppliedIndex := by
  have hcommit := backed_effect I S C E
  have old := A.backed n
  cases E with
  | follows hf _ => rw [hf.storage]; exact old.mono hf.term (Nat.le_refl _)
  | elected _ _ _ _ => exact old.mono (Nat.le_refl _) (Nat.le_refl _)
  | proposed _ => exact old.mono (Nat.le_refl _) (Nat.le_refl _)
  | @appended _ _ req _ hr hreq hn hle hprev =>
    obtain ⟨_, hcont⟩ := (S.node n).appendLoop_spliced I S.books (S.delivered hr hreq hn) hprev
    have old' : Backed (s.history ++ []) ((s.servers n).raft.appended req).currentTerm
        (s.servers n).raft.storage.lastAppliedIndex := by
      rw [(RaftNode.appended_term hle).1]
      exact old.mono hle (Nat.le_refl _)
    rcases (s.servers n).raft.appended_cases _ hcont with ⟨_, hst⟩ | ⟨_, _, hst⟩ <;> rw [hst]
    · exact old'
    · exact old'.max hcommit
  | advanced _ hf _ _ hget =>
    have hcont := (S.node n).contiguous
    rw [hf.committed_storage hcont (hcont.le_of_get hget)]
    exact Backed.max (old.mono hf.term (Nat.le_refl _)) hcommit
  | restarted ha _ =>
    subst ha
    exact hcrash.elim

/-- An election of node `n` in a term that `n` has not reached is not in the history. -/
theorem Sim.led_reached (I : HInv m h) (S : Sim m h s) {T : Nat} {L : List LogEntry}
    (hmem : Event.becameLeader n T L ∈ s.history) : T ≤ (s.servers n).raft.currentTerm := by
  by_contra hT
  exact (S.node n).not_leader I (by omega) (S.history.events _ hmem).1

/-- A node that wins an election has applied no more than the log it stands with: what it has
applied was committed in an earlier term. -/
theorem elected_applied {s' : Cluster} {h' : Hist} (S : Sim m h s) (I' : HInv m h')
    (S' : Sim m h' s') (A : AppliedInv s) {L : List LogEntry}
    (hhist : s'.history = s.history ++ [.becameLeader n (s.servers n).raft.currentTerm L])
    (hfree : h.leader (s.servers n).raft.currentTerm = none) :
    (s.servers n).raft.storage.lastAppliedIndex ≤ L.length := by
  rcases A.backed n with h0 | ⟨k, T, N, L', hmem, hT, hN⟩
  · omega
  · have hlt : T < (s.servers n).raft.currentTerm := by
      rcases Nat.lt_or_eq_of_le hT with hlt | rfl
      · exact hlt
      · have hl := (S.history.events _ hmem).1
        rw [hfree] at hl
        cases hl
    have hold : Event.advanced k T N L' ∈ s'.history := by
      rw [hhist]; exact List.mem_append_left _ hmem
    have hnew : Event.becameLeader n (s.servers n).raft.currentTerm L ∈ s'.history := by
      rw [hhist]; exact List.mem_append_right _ (List.mem_singleton_self _)
    obtain ⟨hpre, hNL⟩ := S'.leader_complete I' hold hnew hlt
    have := hpre.length_le
    rw [List.length_take, Nat.min_eq_left hNL] at this
    omega

theorem leading_effect {s' : Cluster} {h' : Hist} (I : HInv m h) (S : Sim m h s) (I' : HInv m h')
    (S' : Sim m h' s') (A : AppliedInv s) (hcrash : crashFree s a) (E : Effect m s a n r' evs)
    (hhist : s'.history = s.history ++ evs) {L : List LogEntry}
    (hmem : Event.becameLeader n r'.currentTerm L ∈ s.history ++ evs) :
    r'.storage.lastAppliedIndex ≤ L.length ∨
      ∃ N L', Event.advanced n r'.currentTerm N L' ∈ s.history ++ evs ∧
        r'.storage.lastAppliedIndex ≤ N := by
  -- what was so in the same term stays so
  have old : Event.becameLeader n (s.servers n).raft.currentTerm L ∈ s.history →
      (s.servers n).raft.storage.lastAppliedIndex ≤ L.length ∨
        ∃ N L', Event.advanced n (s.servers n).raft.currentTerm N L' ∈ s.history ++ evs ∧
          (s.servers n).raft.storage.lastAppliedIndex ≤ N := by
    intro hled
    rcases A.leading n L hled with h₁ | ⟨N, L', h₁, h₂⟩
    · exact Or.inl h₁
    · exact Or.inr ⟨N, L', List.mem_append_left _ h₁, h₂⟩
  cases E with
  | follows hf hev =>
    rcases List.mem_append.mp hmem with h₁ | h₁
    · have hterm := Nat.le_antisymm (S.led_reached I h₁) hf.term
      rw [hterm] at h₁ ⊢
      rw [hf.storage]
      exact old h₁
    · cases (hev _ h₁).1
  | elected he hst hterm hmaj =>
    have hfree := S.won_free I he hst hterm hmaj
    rcases List.mem_append.mp hmem with h₁ | h₁
    · have hl : h.leader (s.servers n).raft.currentTerm = some n := (S.history.events _ h₁).1
      rw [hfree] at hl
      cases hl
    · obtain ⟨-, -, rfl⟩ := Event.becameLeader.inj (List.mem_singleton.mp h₁)
      exact Or.inl (elected_applied S I' S' A (by rw [hhist, hterm]) hfree)
  | proposed _ =>
    rcases List.mem_append.mp hmem with h₁ | h₁
    · exact old h₁
    · cases List.mem_singleton.mp h₁
  | appended _ hr hreq hn hle _ =>
    rw [List.append_nil, (RaftNode.appended_term hle).1] at hmem
    have R := S.delivered hr hreq hn
    have hl := (S.history.events _ hmem).1
    rw [R.leads] at hl
    exact absurd (Option.some.inj hl) R.ne
  | @advanced r₁ c _ _ hf hterm _ hget =>
    have hcont := (S.node n).contiguous
    rw [hf.committed_storage hcont (hcont.le_of_get hget)]
    show max _ c ≤ L.length ∨ ∃ N L', Event.advanced n r₁.currentTerm N L' ∈ _ ∧ max _ c ≤ N
    replace hmem : Event.becameLeader n r₁.currentTerm L ∈ s.history ++ _ := hmem
    rw [hterm] at hmem ⊢
    rcases List.mem_append.mp hmem with h₁ | h₁
    · rcases Nat.le_total (s.servers n).raft.storage.lastAppliedIndex c with hle | hle
      · -- the new commitment covers everything
        refine Or.inr ⟨c, _, List.mem_append_right _ (List.mem_singleton_self _), ?_⟩
        exact Nat.le_of_eq (Nat.max_eq_right hle)
      · rw [Nat.max_eq_left hle]
        exact old h₁
    · cases List.mem_singleton.mp h₁
  | restarted ha _ =>
    subst ha
    exact hcrash.elim

end Preservation

variable {m : Membership} {hash : Bytes → Nat} {s : Cluster}

theorem run_appliedInv {ok : Cluster → Action → Prop} (hok : ∀ s a, ok s a → crashFree s a)
    (hr : Run m hash ok s) : AppliedInv s := by
  induction hr with
  | init => exact ⟨fun _ => Or.inl rfl, fun _ _ hmem => by cases hmem⟩
  | @step s s' a hr ha hs A =>
    obtain ⟨h, I, S⟩ := run_simulated hr
    obtain ⟨h', I', S'⟩ := run_simulated (hr.step ha hs)
    obtain ⟨n, r', evs, E, hn, hother, hhist⟩ := move_effect (step_move hs)
    have hcrash := hok _ _ ha
    constructor
    · rw [hhist]
      exact forall_effect hn hother
        (P := fun _ r => Backed (s.history ++ evs) r.currentTerm r.storage.lastAppliedIndex)
        (applied_backed_effect I S (run_commitInv hr) A hcrash E)
        (fun k _ => (A.backed k).mono (Nat.le_refl _) (Nat.le_refl _))
    · rw [hhist]
      refine forall_effect hn hother
        (P := fun k r => ∀ L, Event.becameLeader k r.currentTerm L ∈ s.history ++ evs →
          r.storage.lastAppliedIndex ≤ L.length ∨
            ∃ N L', Event.advanced k r.currentTerm N L' ∈ s.history ++ evs ∧
              r.storage.lastAppliedIndex ≤ N)
        (fun _ hmem => leading_effect I S I' S' A hcrash E hhist hmem) (fun k hk L hmem => ?_)
      rcases becameLeader_effect E hmem with h₁ | h₁
      · rcases A.leading k L h₁ with h₂ | ⟨N, L', h₂, h₃⟩
        · exact Or.inl h₂
        · exact Or.inr ⟨N, L', List.mem_append_left _ h₂, h₃⟩
      · exact absurd h₁ hk

/-! ## Acknowledgements -/

/-- What an acknowledgement in the entry's own term rests on. -/
def Acknowledged (hist : List Event) (n : NodeId) (e : LogEntry) (L : List LogEntry) : Prop :=
  L[e.index - 1]? = some e ∧
    ∃ N L', Event.advanced n e.term N L' ∈ hist ∧ e.index ≤ N

/-- A proposal that is applied while its node still leads is committed in the node's term. -/
theorem acknowledged {h : Hist} (I : HInv m h) (S : Sim m h s) (A : AppliedInv s) {n : NodeId}
    {e : LogEntry} (P : ProposedBy h n e) (hterm : (s.servers n).raft.currentTerm = e.term)
    (hle : e.index ≤ (s.servers n).raft.storage.lastAppliedIndex) :
    Acknowledged s.history n e (s.servers n).raft.log.entries := by
  have N := S.node n
  obtain ⟨L, hled⟩ := S.history.recorded n e.term P.1
  have hbehind := S.stood_lt I P hled
  constructor
  · rw [← N.log, (I.elected e.term n P.1).log (N.cur.trans hterm)]
    exact P.2.2
  · rw [← hterm] at hled
    rcases A.leading n L hled with h₁ | ⟨N', L', h₁, h₂⟩
    · omega
    · rw [hterm] at h₁
      exact ⟨N', L', h₁, by omega⟩

theorem run_acknowledged (hr : Run m hash ackedInTerm s) :
    ∀ n e L, Event.proposeReturned n e .Ok L ∈ s.history → Acknowledged s.history n e L := by
  induction hr with
  | init => intro n e L hmem; cases hmem
  | step hr ha hs ih =>
    intro n e L hmem
    obtain ⟨evs, hhist, hcause⟩ := move_events (step_move hs)
    rw [hhist] at hmem ⊢
    have grow : ∀ {hist : List Event} {L : List LogEntry}, Acknowledged hist n e L →
        Acknowledged (hist ++ evs) n e L :=
      fun ⟨h₁, N, L', h₂, h₃⟩ => ⟨h₁, N, L', List.mem_append_left _ h₂, h₃⟩
    rcases List.mem_append.mp hmem with h₁ | h₁
    · exact grow (ih n e L h₁)
    · obtain ⟨thread, timedOut, w, rfl, hw, hstage, rfl, _, hres⟩ := hcause _ h₁
      obtain ⟨h, I, S⟩ := run_simulated hr
      have hle := RaftNode.proposeResult_ok hres
      exact grow (acknowledged I S (run_appliedInv (fun _ _ => ackedInTerm_crashFree) hr)
        (S.writes n w (List.mem_of_getElem? hw) e hstage)
        (ackedInTerm_writeStep ha hw hstage hle) hle)

/-- **An acknowledged write is committed**, when `Propose` returns `Ok` in the entry's term. -/
theorem acknowledged_write_committed (hr : Run m hash ackedInTerm s) {n : NodeId} {e : LogEntry}
    {L : List LogEntry} (he : Event.proposeReturned n e .Ok L ∈ s.history) :
    L[e.index - 1]? = some e ∧
      ∀ n' T' L', Event.becameLeader n' T' L' ∈ s.history → e.term < T' →
        L'[e.index - 1]? = some e := by
  obtain ⟨hL, N, La, hadv, hN⟩ := run_acknowledged hr n e L he
  refine ⟨hL, ?_⟩
  intro n' T' L' hled hT
  obtain ⟨h, I, S⟩ := run_simulated hr
  obtain ⟨_, hpos, hbook⟩ := S.history.events _ he
  obtain ⟨_, _, hpre, hNL⟩ := S.history.events _ hadv
  obtain ⟨hcomp, _⟩ := S.leader_complete I hadv hled hT
  -- the entry stands in the book, hence in the part the leader has committed
  have hLa : La[e.index - 1]? = some e := by
    have hlt : e.index - 1 < La.length := by omega
    have hget := getElem?_of_isPrefix hpre (List.getElem?_eq_getElem hlt)
    rw [hbook] at hget
    rw [List.getElem?_eq_getElem hlt, hget]
  refine getElem?_of_isPrefix hcomp ?_
  rw [List.getElem?_take_of_lt (by omega)]
  exact hLa

theorem acknowledged_write_failover :
    ∃ s, Run Membership.trio (fun _ => 0) ackedInTerm s ∧
      Event.proposeReturned 1 firstEntry .Ok [firstEntry] ∈ s.history ∧
      Event.becameLeader 2 2 [firstEntry] ∈ s.history ∧
      ([firstEntry][0]? = some firstEntry ∧
        ∀ n' T' L', Event.becameLeader n' T' L' ∈ s.history → 1 < T' → L'[0]? = some firstEntry) := by
  obtain ⟨s, hr, hs⟩ : ∃ s, Run Membership.trio (fun _ => 0) ackedInTerm s ∧
      decide (Event.proposeReturned 1 firstEntry .Ok [firstEntry] ∈ s.history ∧
        Event.becameLeader 2 2 [firstEntry] ∈ s.history) = true :=
    exists_run failover (by decide +kernel)
  obtain ⟨ha, hb⟩ := of_decide_eq_true hs
  exact ⟨s, hr, ha, hb, acknowledged_write_committed hr ha⟩

/-- After `replacedLeader`, node 2's request to node 1 replaces the entry `Propose` waits for there
and applies the other one; then that `Propose` wakes up. -/
def overtakenProposal : List Action :=
  replacedLeader ++ [.act 2 (.replicate 1), .deliver 8, .act 1 (.writeStep 0 false)]

/-- **Without the condition a lost write is acknowledged.** -/
theorem lost_write_acknowledged :
    ¬ ∀ (m : Membership) (hash : Bytes → Nat) (s : Cluster), Run m hash crashFree s →
      ∀ (n : NodeId) (e : LogEntry) (L : List LogEntry),
        Event.proposeReturned n e .Ok L ∈ s.history →
        L[e.index - 1]? = some e ∧
          ∀ n' T' L', Event.becameLeader n' T' L' ∈ s.history → e.term < T' →
            L'[e.index - 1]? = some e := by
  intro hall
  obtain ⟨s, hr, hs⟩ : ∃ s, Run Membership.trio (fun _ => 0) crashFree s ∧
      decide (Event.proposeReturned 1 firstEntry .Ok [⟨2, 1, .kSet, [98], [50]⟩] ∈ s.history) =
        true :=
    exists_run overtakenProposal (by decide +kernel)
  have h := (hall _ _ s hr 1 firstEntry _ (of_decide_eq_true hs)).1
  exact absurd h (by decide)

end NeuralKV
