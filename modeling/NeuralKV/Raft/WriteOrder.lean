import NeuralKV.Raft.Rejections
import NeuralKV.Raft.StateMachine
import NeuralKV.Raft.Terms

/-!
# Where log entries come from, and in which order they are committed

`Propose` is the only source of entries: it gives the entry of its client the leader's term and the
next index, and from there entries are only copied, cut off and read back.

* `move_proposal` — what a step proposes, if it proposes anything.
* `Provenance` — the invariant: every entry in a log or a request has been proposed, and a proposal
  was in no log that had been committed before it.
* `entries_from_proposals` — **no entry appears out of nothing, and no two proposals share a term
  and an index**.
* `commits_in_real_time` — **a write that is proposed after a commitment is committed, if at all,
  behind it**, whichever nodes lead.
-/

set_option autoImplicit false

namespace NeuralKV

open Consensus Cluster
open Runs (anyStep exists_run)

/-! ## Proposals -/

/-- The term and index that a proposal takes. -/
def Event.slot : Event → Option (Nat × Nat)
  | .proposed _ e => some (e.term, e.index)
  | _ => none

/-- The entry that is proposed: the next one of the leader `n`. -/
structure Proposes (s : Cluster) (n : NodeId) (e : LogEntry) : Prop where
  leads : (s.servers n).raft.state = .kLeader
  term : e.term = (s.servers n).raft.currentTerm
  index : e.index = (s.servers n).raft.log.wal.lastIndex + 1

section Inversion

variable {m : Membership} {s s' : Cluster} {a : Action}

theorem answered_no_slot {n : NodeId} {events : List Event}
    (hevents : ∀ ev ∈ events, ∃ e resp, ev = .answered n e resp) :
    ∀ ev ∈ events, ev.slot = none := by
  intro ev hev
  obtain ⟨_, _, rfl⟩ := hevents ev hev
  rfl

/-- **A step proposes one entry and records nothing else, or it proposes nothing.** -/
theorem move_proposal (mv : Move m s a s') :
    (∃ n e, s'.history = s.history ++ [.proposed n e] ∧ Proposes s n e ∧
        (s'.servers n).raft =
          { (s.servers n).raft with log := (s.servers n).raft.log.append e } ∧
        ∀ k, k ≠ n → (s'.servers k).raft = (s.servers k).raft) ∨
      ∃ evs, s'.history = s.history ++ evs ∧ ∀ ev ∈ evs, ev.slot = none := by
  have none : ∀ ev ∈ ([] : List Event), ev.slot = none := fun _ hev => by cases hev
  cases mv with
  | tick d => exact Or.inr ⟨[], (List.append_nil _).symm, none⟩
  | replicateIdle _ => exact Or.inr ⟨[], (List.append_nil _).symm, none⟩
  | endElection _ _ =>
    refine Or.inr ⟨_, rfl, ?_⟩
    split
    · simp [Event.slot]
    · exact none
  | replicateReply _ _ _ _ _ _ =>
    refine Or.inr ⟨_, rfl, ?_⟩
    split
    · exact none
    · simp [Event.slot]
  | writeStep _ _ hmove =>
    cases hmove with
    | passed _ hevents => exact Or.inr ⟨_, rfl, answered_no_slot hevents⟩
    | proposed _ hl hentry =>
      refine Or.inl ⟨_, _, rfl, ⟨hl, by rw [hentry], by rw [hentry]⟩, ?_, fun k hk => ?_⟩
      · simp [Cluster.update]
      · simp [Cluster.update, hk]
    | returned _ _ _ hevents =>
      exact Or.inr ⟨_, rfl, List.forall_mem_cons.mpr ⟨rfl, answered_no_slot hevents⟩⟩
  | readStep _ _ hmove =>
    refine Or.inr ⟨_, rfl, ?_⟩
    cases hmove <;> simp [Event.slot]
  | _ => exact Or.inr ⟨[], rfl, none⟩

/-- A new request carries entries of its sender's log. -/
theorem move_carries (mv : Move m s a s') : ∀ r ∈ s'.rpcs,
    r ∈ s.rpcs ∨ r.req.entries ⊆ (s.servers r.caller).raft.log.entries := by
  have old : ∀ r ∈ s.rpcs ++ [], r ∈ s.rpcs ∨
      r.req.entries ⊆ (s.servers r.caller).raft.log.entries := by
    intro r hr
    rw [List.append_nil] at hr
    exact Or.inl hr
  have new : ∀ {r₀ : Rpc}, r₀.req.entries ⊆ (s.servers r₀.caller).raft.log.entries →
      ∀ r ∈ s.rpcs ++ [r₀], r ∈ s.rpcs ∨
        r.req.entries ⊆ (s.servers r.caller).raft.log.entries := by
    intro r₀ hsub r hr
    rcases List.mem_append.mp hr with h | h
    · exact Or.inl h
    · obtain rfl := List.mem_singleton.mp h
      exact Or.inr hsub
  cases mv with
  | tick d => exact fun r hr => Or.inl hr
  | replicateIdle _ => exact fun r hr => Or.inl hr
  | callVoter _ _ => exact new (List.nil_subset _)
  | replicate _ _ _ hreq =>
    unfold RaftNode.replicateRequest at hreq
    split at hreq <;> cases hreq
    exact new (Log.entriesFrom_subset _ _)
  | readStep _ _ hmove =>
    cases hmove with
    | sent hstage hreq =>
      unfold RaftNode.confirmRequest at hreq
      split at hreq <;> cases hreq
      exact new (List.nil_subset _)
    | _ => exact old
  | _ => exact old

end Inversion

/-! ## The invariant -/

/-- Entry `e` has been proposed. -/
def Proposed (hist : List Event) (e : LogEntry) : Prop := ∃ n, Event.proposed n e ∈ hist

structure Provenance (h : Hist) (s : Cluster) : Prop where
  placed : ∀ n e, Event.proposed n e ∈ s.history → ProposedBy h n e
  logs : ∀ k, ∀ e ∈ (s.servers k).raft.log.entries, Proposed s.history e
  sent : ∀ r ∈ s.rpcs, ∀ e ∈ r.req.entries, Proposed s.history e
  once : (s.history.filterMap Event.slot).Nodup
  unseen : ∀ (i j : Nat) n T N L k e, s.history[i]? = some (Event.advanced n T N L) →
    s.history[j]? = some (Event.proposed k e) → i < j → L[e.index - 1]? ≠ some e

section Invariant

variable {m : Membership} {h h' : Hist} {s s' : Cluster} {a : Action} {n : NodeId} {e : LogEntry}

theorem Proposed.append {hist evs : List Event} (h : Proposed hist e) : Proposed (hist ++ evs) e :=
  h.imp fun _ hmem => List.mem_append_left _ hmem

theorem Event.slot_eq {ev : Event} {p : Nat × Nat} (h : ev.slot = some p) :
    ∃ n e, ev = .proposed n e ∧ p = (e.term, e.index) := by
  unfold Event.slot at h
  split at h
  · cases h
    exact ⟨_, _, rfl, rfl⟩
  · cases h

/-- The book of the leader's term ends right before the entry that is proposed. -/
theorem Proposes.book_length (P : Proposes s n e) (I : HInv m h) (S : Sim m h s) :
    (h.book e.term).length < e.index := by
  rw [P.term, ← (S.node n).leader_log I P.leads, P.index, (S.node n).contiguous.lastIndex]
  exact Nat.lt_succ_self _

/-- No list that is rooted in the books has the entry yet. -/
theorem Proposes.not_rooted (P : Proposes s n e) (I : HInv m h) (S : Sim m h s) {L : List LogEntry}
    (hL : Rooted entryTerm h.book L) : L[e.index - 1]? ≠ some e := by
  intro hmem
  have hpre := (hL _ _ hmem).length_le
  have hlt := (List.getElem?_eq_some_iff.mp hmem).1
  have hbook := P.book_length I S
  rw [List.length_take] at hpre
  rw [entryTerm] at hpre
  omega

/-- What a step that proposes nothing brings into a log was proposed before. -/
theorem Provenance.logs_move (P : Provenance h s) (S : Sim m h s) (mv : Move m s a s')
    {evs : List Event} (hhist : s'.history = s.history ++ evs) (hevs : ∀ ev ∈ evs, ev.slot = none) :
    ∀ k, ∀ e ∈ (s'.servers k).raft.log.entries, Proposed s.history e := by
  obtain ⟨n, r', evs', E, hself, hother, hhist'⟩ := move_effect mv
  have heq : evs' = evs := List.append_cancel_left (hhist'.symm.trans hhist)
  subst heq
  refine forall_effect hself hother
    (P := fun _ r => ∀ e ∈ r.log.entries, Proposed s.history e) ?_ (fun k _ => P.logs k)
  intro e he
  cases E with
  | follows hf _ => exact P.logs n e (hf.log ▸ he)
  | elected _ _ _ _ => exact P.logs n e he
  | proposed _ => cases hevs _ (List.mem_singleton_self _)
  | appended _ hr hreq hn _ hprev =>
    rcases S.mem_appended hr hreq hn hprev he with hold | hnew
    · exact P.logs n e hold
    · refine P.sent _ (List.mem_of_getElem? hr) e ?_
      rw [hreq]
      exact hnew
  | advanced _ hf _ _ _ => exact P.logs n e (hf.log ▸ he)
  | restarted _ hr =>
    rw [(RaftNode.restart_spec (S.node n).contiguous hr).entries] at he
    exact P.logs n e he

/-- A step that proposes nothing. -/
theorem Provenance.quiet (P : Provenance h s) (S : Sim m h s) (x : Extends h h')
    (mv : Move m s a s') {evs : List Event} (hhist : s'.history = s.history ++ evs)
    (hevs : ∀ ev ∈ evs, ev.slot = none) : Provenance h' s' := by
  have hold : ∀ {n e}, Event.proposed n e ∈ s'.history → Event.proposed n e ∈ s.history := by
    intro n e hmem
    rw [hhist] at hmem
    rcases List.mem_append.mp hmem with h₁ | h₁
    · exact h₁
    · cases hevs _ h₁
  refine ⟨fun n e hmem => (P.placed n e (hold hmem)).frame x, fun k e he => ?_, fun r hr e he => ?_,
    ?_, fun i j n T N L k e hi hj hij => ?_⟩
  · rw [hhist]
    exact (P.logs_move S mv hhist hevs k e he).append
  · rw [hhist]
    rcases move_carries mv r hr with h₁ | h₁
    · exact (P.sent r h₁ e he).append
    · exact (P.logs _ e (h₁ he)).append
  · have hnone : evs.filterMap Event.slot = [] := List.filterMap_eq_nil_iff.mpr hevs
    rw [hhist, List.filterMap_append, hnone, List.append_nil]
    exact P.once
  · -- the proposal is an old event, and so is what came before it
    rw [hhist] at hi hj
    have hjlt : j < s.history.length := by
      by_contra hge
      rw [List.getElem?_append_right (by omega)] at hj
      cases hevs _ (List.mem_of_getElem? hj)
    rw [List.getElem?_append_left (by omega)] at hi
    rw [List.getElem?_append_left hjlt] at hj
    exact P.unseen i j n T N L k e hi hj hij

/-- **A step that proposes an entry.** -/
theorem Provenance.propose (P : Provenance h s) (I : HInv m h) (S : Sim m h s) (I' : HInv m h')
    (S' : Sim m h' s') (x : Extends h h') (mv : Move m s a s') (Q : Proposes s n e)
    (hhist : s'.history = s.history ++ [.proposed n e])
    (hself : (s'.servers n).raft =
      { (s.servers n).raft with log := (s.servers n).raft.log.append e })
    (hother : ∀ k, k ≠ n → (s'.servers k).raft = (s.servers k).raft) : Provenance h' s' := by
  have hindex : e.index = (s.servers n).raft.log.entries.length + 1 := by
    rw [Q.index, (S.node n).contiguous.lastIndex]
  have hlog : (s'.servers n).raft.log.entries = (s.servers n).raft.log.entries ++ [e] := by
    rw [hself]
    exact Log.append_entries_self (S.node n).contiguous hindex
  have hnew : Proposed s'.history e := ⟨n, by rw [hhist]; simp⟩
  have hplaced : ProposedBy h' n e := by
    have hl' : (s'.servers n).raft.state = .kLeader := by rw [hself]; exact Q.leads
    have hterm : e.term = (s'.servers n).raft.currentTerm := by rw [hself]; exact Q.term
    refine ⟨?_, by omega, ?_⟩
    · rw [hterm]
      exact ((S'.node n).leader hl').leads
    · rw [hterm, ← (S'.node n).leader_log I' hl', hlog, hindex]
      simp
  have hlogs : ∀ k, ∀ e' ∈ (s'.servers k).raft.log.entries, Proposed s'.history e' := by
    have hold : ∀ k, ∀ e' ∈ (s.servers k).raft.log.entries, Proposed s'.history e' :=
      fun k e' he' => hhist ▸ (P.logs k e' he').append
    refine forall_effect rfl hother (P := fun _ r => ∀ e' ∈ r.log.entries, Proposed s'.history e')
      (fun e' he' => ?_) (fun k _ => hold k)
    rw [hlog] at he'
    rcases List.mem_append.mp he' with he' | hlast
    · exact hold n e' he'
    · rw [List.mem_singleton.mp hlast]
      exact hnew
  refine ⟨fun k e' hmem => ?_, hlogs, fun r hr e' he' => ?_, ?_,
    fun i j k T N L c e' hi hj hij => ?_⟩
  · rw [hhist] at hmem
    rcases List.mem_append.mp hmem with hold | hlast
    · exact (P.placed k e' hold).frame x
    · cases List.mem_singleton.mp hlast
      exact hplaced
  · rw [hhist]
    rcases move_carries mv r hr with h₁ | h₁
    · exact (P.sent r h₁ e' he').append
    · exact (P.logs _ e' (h₁ he')).append
  · -- an earlier proposal of this term and index would already be in the book
    rw [hhist, List.filterMap_append, List.nodup_append]
    refine ⟨P.once, by simp [Event.slot], fun p hp q hq => ?_⟩
    rintro rfl
    obtain ⟨ev, hev, hslot⟩ := List.mem_filterMap.mp hp
    obtain ⟨k, e', rfl, rfl⟩ := Event.slot_eq hslot
    have hsame : e'.term = e.term ∧ e'.index = e.index := by
      simpa [Event.slot] using hq
    have hbook := (P.placed k e' hev).2.2
    rw [hsame.1, hsame.2] at hbook
    have hlt := (List.getElem?_eq_some_iff.mp hbook).1
    have hlen := Q.book_length I S
    omega
  · rw [hhist] at hi hj
    by_cases hjlt : j < s.history.length
    · rw [List.getElem?_append_left (by omega)] at hi
      rw [List.getElem?_append_left hjlt] at hj
      exact P.unseen i j k T N L c e' hi hj hij
    · -- the new proposal: what was committed is part of a book
      have hj' : j = s.history.length := by
        have := (List.getElem?_eq_some_iff.mp hj).1
        rw [List.length_append, List.length_singleton] at this
        omega
      rw [List.getElem?_append_left (by omega)] at hi
      rw [hj', List.getElem?_concat_length] at hj
      cases hj
      obtain ⟨_, _, hL, _⟩ := S.history.events _ (List.mem_of_getElem? hi)
      exact Q.not_rooted I S ((I.rooted_book T).of_isPrefix hL)

end Invariant

/-! ## Results -/

section Results

variable {m : Membership} {hash : Bytes → Nat} {s : Cluster}

theorem provenance_run (hr : Run m hash anyStep s) :
    ∃ h, HInv m h ∧ Sim m h s ∧ Provenance h s := by
  induction hr with
  | init =>
    have hr₀ : Run m hash anyStep (Cluster.init hash) := .init
    obtain ⟨h, I, S⟩ := run_simulated hr₀
    refine ⟨h, I, S, ?_, ?_, ?_, ?_, ?_⟩ <;> simp [Cluster.init, RaftNode.fresh]
  | step _ _ hs ih =>
    obtain ⟨h, I, S, P⟩ := ih
    have mv := step_move hs
    obtain ⟨h', st, S'⟩ := sim_move I S mv
    have I' := inv_steps I st
    have x := extends_steps I st
    refine ⟨h', I', S', ?_⟩
    rcases move_proposal mv with ⟨n, e, hhist, Q, hself, hother⟩ | ⟨evs, hhist, hevs⟩
    · exact P.propose I S I' S' x mv Q hhist hself hother
    · exact P.quiet S x mv hhist hevs

/-- **No entry appears out of nothing**: whatever is in a log or in a request was proposed by a
client's call, and each term and index was given to one call only. -/
theorem entries_from_proposals (hr : Run m hash anyStep s) :
    (∀ k, ∀ e ∈ (s.servers k).raft.log.entries, Proposed s.history e) ∧
      (∀ r ∈ s.rpcs, ∀ e ∈ r.req.entries, Proposed s.history e) ∧
      ∀ (i j : Nat) n k e e', s.history[i]? = some (Event.proposed n e) →
        s.history[j]? = some (Event.proposed k e') → e.term = e'.term → e.index = e'.index →
          i = j := by
  obtain ⟨h, _, _, P⟩ := provenance_run hr
  refine ⟨P.logs, P.sent, fun i j n k e e' hi hj hterm hindex => ?_⟩
  by_contra hne
  have hdistinct := Runs.pairwise_getElem? (fun _ _ hab p hp q hq => (hab q hq p hp).symm)
    (List.pairwise_filterMap.mp P.once) hne hi hj
  exact hdistinct _ rfl _ rfl (Prod.ext hterm hindex)

/-- After `failover` node 2 proposes a second entry and brings both to node 3. -/
def secondProposal : List Action :=
  failover ++ startSet 2 [98] [50] ++
    [.act 2 (.replicate 3), .deliver 6, .act 2 (.replicateReply 6), .act 2 (.replicate 3),
      .deliver 7, .act 2 (.replicateReply 7)]

theorem entries_from_proposals_failover :
    ∃ s, Run Membership.trio (fun _ => 0) anyStep s ∧
      ((s.servers 3).raft.log.entries).length = 2 ∧
      ∀ e ∈ (s.servers 3).raft.log.entries, Proposed s.history e := by
  obtain ⟨s, hr, hs⟩ : ∃ s, Run Membership.trio (fun _ => 0) anyStep s ∧
      decide ((s.servers 3).raft.log.entries.length = 2) = true :=
    exists_run secondProposal (by decide +kernel)
  exact ⟨s, hr, of_decide_eq_true hs, (entries_from_proposals hr).1 3⟩

/-- **Commitment follows real time**: an entry that is proposed after index `N` has been committed
anywhere gets an index above `N`, if it is ever committed itself. -/
theorem commits_in_real_time (hr : Run m hash anyStep s) {i j : Nat} {n k c : NodeId}
    {T N U M : Nat} {L K : List LogEntry} {e : LogEntry}
    (hi : s.history[i]? = some (.advanced n T N L)) (hj : s.history[j]? = some (.proposed k e))
    (hij : i < j) (hc : .advanced c U M K ∈ s.history) (hM : e.index ≤ M)
    (hK : K[e.index - 1]? = some e) : N < e.index := by
  obtain ⟨h, I, S, P⟩ := provenance_run hr
  by_contra hle
  have hpos := (P.placed k e (List.mem_of_getElem? hj)).2.1
  have hmem := List.mem_of_getElem? hi
  refine P.unseen i j n T N L k e hi hj hij ?_
  -- two committed lists agree wherever both are defined
  have hcert : Certified s.history T (L.take N) :=
    Or.inr ⟨n, T, N, L, hmem, Nat.le_refl _, List.prefix_refl _⟩
  have hcert' : Certified s.history U (K.take M) :=
    Or.inr ⟨c, U, M, K, hc, Nat.le_refl _, List.prefix_refl _⟩
  have hN := (S.history.events _ hmem).2.2.2
  have hLN : (L.take N)[e.index - 1]? = L[e.index - 1]? := List.getElem?_take_of_lt (by omega)
  have hKM : (K.take M)[e.index - 1]? = K[e.index - 1]? := List.getElem?_take_of_lt (by omega)
  rcases hcert.comparable I S hcert' with hpre | hpre
  · have hlt : e.index - 1 < (L.take N).length := by
      rw [List.length_take]
      omega
    have hget := getElem?_of_isPrefix hpre (List.getElem?_eq_getElem hlt)
    rw [hKM, hK] at hget
    rw [← hLN, List.getElem?_eq_getElem hlt, hget]
  · have hget := getElem?_of_isPrefix hpre (hKM.trans hK)
    rw [← hLN, hget]

theorem commits_in_real_time_failover :
    ∃ s e, Run Membership.trio (fun _ => 0) anyStep s ∧
      s.history[2]? = some (.advanced 1 1 1 [firstEntry]) ∧
      s.history[6]? = some (.proposed 2 e) ∧
      .advanced 2 2 2 [firstEntry, e] ∈ s.history ∧ firstEntry.index < e.index := by
  obtain ⟨s, hr, hs⟩ : ∃ s, Run Membership.trio (fun _ => 0) anyStep s ∧
      decide (s.history[2]? = some (Event.advanced 1 1 1 [firstEntry]) ∧
        s.history[6]? = some (Event.proposed 2 ⟨2, 2, .kSet, [98], [50]⟩) ∧
        Event.advanced 2 2 2 [firstEntry, ⟨2, 2, .kSet, [98], [50]⟩] ∈ s.history) = true :=
    exists_run secondProposal (by decide +kernel)
  obtain ⟨hi, hj, hc⟩ := of_decide_eq_true hs
  exact ⟨s, ⟨2, 2, .kSet, [98], [50]⟩, hr, hi, hj, hc,
    commits_in_real_time hr hi hj (by decide) hc (by decide) (by decide)⟩

end Results

end NeuralKV
