import NeuralKV.Lib.Splice
import NeuralKV.Raft.Restart
import NeuralKV.Raft.Simulation

/-!
# What a follower makes of a request

The loop of `HandleAppendEntries` reads the log while it changes it, and the entries get their
indices from the WAL writer, not from the request.

* `ExactAppend` — one request: when it is accepted, which log it leaves, and that the same request a
  second time changes nothing.
* `OrderInsensitive` — two pieces of one leader's log leave the same log in either order.
* `follower_append_exact` — **both hold for every contiguous log.**
-/

set_option autoImplicit false

namespace NeuralKV

open Consensus

/-! ## Indices come from the log -/

theorem getElem?_renumber : ∀ (es : List LogEntry) (p j : Nat),
    (renumber p es)[j]? = es[j]?.map fun e => { e with index := p + j + 1 }
  | [], _, _ => by simp [renumber]
  | e :: es, p, 0 => by simp [renumber]
  | e :: es, p, j + 1 => by
    rw [renumber, List.getElem?_cons_succ, List.getElem?_cons_succ, getElem?_renumber es,
      show p + 1 + j = p + (j + 1) by omega]

theorem length_renumber : ∀ (es : List LogEntry) (p : Nat), (renumber p es).length = es.length
  | [], _ => rfl
  | _ :: es, p => by rw [renumber, List.length_cons, List.length_cons, length_renumber es]

theorem renumber_numberedFrom (p : Nat) (es : List LogEntry) : NumberedFrom p (renumber p es) := by
  intro i e he
  rw [getElem?_renumber] at he
  obtain ⟨x, _, rfl⟩ := Option.map_eq_some_iff.mp he
  rfl

theorem drop_renumber : ∀ (es : List LogEntry) (p j : Nat),
    (renumber p es).drop j = renumber (p + j) (es.drop j)
  | _, _, 0 => rfl
  | [], _, j + 1 => by simp [renumber]
  | e :: es, p, j + 1 => by
    rw [renumber, List.drop_succ_cons, List.drop_succ_cons, drop_renumber es,
      show p + 1 + j = p + (j + 1) by omega]

theorem take_renumber : ∀ (es : List LogEntry) (p j : Nat),
    (renumber p es).take j = renumber p (es.take j)
  | _, _, 0 => by simp [renumber]
  | [], _, j + 1 => by simp [renumber]
  | e :: es, p, j + 1 => by
    rw [renumber, List.take_succ_cons, List.take_succ_cons, take_renumber es, renumber]

/-- Renumbering keeps the terms. -/
theorem agreesFrom_renumber {L es : List LogEntry} {i p : Nat} :
    AgreesFrom entryTerm L i (renumber p es) ↔ AgreesFrom entryTerm L i es := by
  constructor
  · intro h j e a he ha
    refine h j { e with index := p + j + 1 } a ?_ ha
    rw [getElem?_renumber, he]
    rfl
  · intro h j e a he ha
    rw [getElem?_renumber] at he
    obtain ⟨x, hx, rfl⟩ := Option.map_eq_some_iff.mp he
    exact h j x a hx ha

namespace RaftNode

/-! ## The loop -/

/-- The loop does not look at the indices that the entries carry. -/
theorem appendLoop_renumber : ∀ (es : List LogEntry) (log : Log) (p : Nat),
    appendLoop log p (renumber p es) = appendLoop log p es
  | [], _, _ => rfl
  | e :: es, log, p => by
    unfold renumber appendLoop
    cases log.get (p + 1) with
    | none => exact appendLoop_renumber es (log.append e) (p + 1)
    | some existing =>
      simp only
      split
      · exact appendLoop_renumber es log (p + 1)
      · exact appendLoop_renumber es ((log.truncateFrom (p + 1)).append e) (p + 1)

/-- **The loop is the receiver's scan for the entries as they are numbered here.** -/
theorem appendLoop_entries {log : Log} {p : Nat} (hc : log.Contiguous)
    (hp : p ≤ log.entries.length) (es : List LogEntry) :
    (appendLoop log p es).entries = overwrite entryTerm log.entries p (renumber p es) ∧
      (appendLoop log p es).Contiguous := by
  rw [← appendLoop_renumber]
  exact appendLoop_spec hc hp (renumber_numberedFrom p es)

/-- Entries that the log holds already leave it alone. -/
theorem appendLoop_held : ∀ {es : List LogEntry} {log : Log} {p : Nat}, log.Contiguous →
    AgreesFrom entryTerm log.entries p es → p + es.length ≤ log.entries.length →
      appendLoop log p es = log
  | [], _, _, _, _, _ => rfl
  | e :: es, log, p, hc, hagree, hlen => by
    rw [List.length_cons] at hlen
    have hlt : p < log.entries.length := by omega
    have hl : log.entries[p]? = some log.entries[p] := List.getElem?_eq_getElem hlt
    have hget : log.get (p + 1) = some log.entries[p] := by
      rw [hc.get_eq (by omega)]
      exact hl
    have hterm : log.entries[p].term = e.term := hagree 0 e _ rfl hl
    unfold appendLoop
    simp only [hget, hterm, if_true]
    exact appendLoop_held hc hagree.tail (by omega)

/-- **A second pass over the same entries does nothing.** -/
theorem appendLoop_again {log : Log} {p : Nat} (hc : log.Contiguous)
    (hp : p ≤ log.entries.length) (es : List LogEntry) :
    appendLoop (appendLoop log p es) p es = appendLoop log p es := by
  obtain ⟨hentries, hcont⟩ := appendLoop_entries hc hp es
  obtain ⟨hagree, hlen⟩ := agreesFrom_overwrite entryTerm (renumber p es) hp
  rw [← hentries] at hagree hlen
  rw [length_renumber] at hlen
  exact appendLoop_held hcont (agreesFrom_renumber.mp hagree) hlen

/-! ## The request -/

/-- `HandleAppendEntries` for a request that is not stale. -/
theorem handleAppendEntries_of_le {node : RaftNode} {req : AppendEntriesRequest}
    (hterm : node.currentTerm ≤ req.term) :
    node.handleAppendEntries req =
      if node.prevMismatch req then (node.acceptLeader req, ⟨req.term, false⟩)
      else
        (({ node.acceptLeader req with
            log := appendLoop node.log req.prevLogIndex req.entries } : RaftNode).followCommit
              req.leaderCommit, ⟨req.term, true⟩) := by
  unfold handleAppendEntries
  rw [if_neg (Nat.not_lt.mpr hterm)]
  simp only [prevMismatch_acceptLeader, acceptLeader_term hterm, (node.acceptLeader_fields req).1]

/-- **What one request does to a follower.** -/
structure ExactAppend (node : RaftNode) (req : AppendEntriesRequest) : Prop where
  accepted : (node.handleAppendEntries req).2.success = true ↔ node.HasPrev req
  /-- The result is numbered by position, and the file holds the same records. -/
  contiguous : (node.handleAppendEntries req).1.log.Contiguous
  /-- Where all terms agree, the log keeps every entry. -/
  extended : node.HasPrev req →
    AgreesFrom entryTerm node.log.entries req.prevLogIndex req.entries →
      (node.handleAppendEntries req).1.log.entries =
        node.log.entries ++ renumber node.log.entries.length
          (req.entries.drop (node.log.entries.length - req.prevLogIndex))
  /-- Otherwise it is cut before the first entry of another term. -/
  replaced : node.HasPrev req → ∀ j entry existing, req.entries[j]? = some entry →
    node.log.entries[req.prevLogIndex + j]? = some existing → existing.term ≠ entry.term →
    AgreesFrom entryTerm node.log.entries req.prevLogIndex (req.entries.take j) →
      (node.handleAppendEntries req).1.log.entries =
        node.log.entries.take (req.prevLogIndex + j) ++
          renumber (req.prevLogIndex + j) (req.entries.drop j)
  againLog : ((node.handleAppendEntries req).1.handleAppendEntries req).1.log =
    (node.handleAppendEntries req).1.log
  againCommit : ((node.handleAppendEntries req).1.handleAppendEntries req).1.commitIndex =
    (node.handleAppendEntries req).1.commitIndex

section Handled

variable {node : RaftNode} {req : AppendEntriesRequest}

theorem handleAppendEntries_accepted (hterm : node.currentTerm ≤ req.term)
    (hprev : node.prevMismatch req = false) :
    (node.handleAppendEntries req).2.success = true ∧
      (node.handleAppendEntries req).1.log =
        appendLoop node.log req.prevLogIndex req.entries ∧
      (node.handleAppendEntries req).1.currentTerm = req.term ∧
      (node.handleAppendEntries req).1.commitIndex =
        if node.commitIndex < req.leaderCommit then
          min req.leaderCommit (appendLoop node.log req.prevLogIndex req.entries).lastIndex
        else node.commitIndex := by
  have hfollow := followCommit_fields
    { node.acceptLeader req with log := appendLoop node.log req.prevLogIndex req.entries }
    req.leaderCommit
  rw [handleAppendEntries_of_le hterm, if_neg (by simp [hprev])]
  refine ⟨rfl, hfollow.1, ?_, ?_⟩
  · rw [hfollow.2.1]
    exact acceptLeader_term hterm
  · rw [hfollow.2.2]
    simp only [(node.acceptLeader_fields req).2.2]

theorem handleAppendEntries_rejected (hterm : node.currentTerm ≤ req.term)
    (hprev : node.prevMismatch req = true) :
    (node.handleAppendEntries req).2.success = false ∧
      (node.handleAppendEntries req).1 = node.acceptLeader req := by
  rw [handleAppendEntries_of_le hterm, if_pos hprev]
  exact ⟨rfl, rfl⟩

/-- The entry in front of the request's entries is still there. -/
theorem HasPrev.again (hc : node.log.Contiguous) (h : node.HasPrev req) {node' : RaftNode}
    (hlog : node'.log = appendLoop node.log req.prevLogIndex req.entries) :
    node'.HasPrev req := by
  have htake : node'.log.entries.take req.prevLogIndex =
      node.log.entries.take req.prevLogIndex := by
    rw [hlog, (appendLoop_entries hc h.le req.entries).1]
    exact take_overwrite h.le
  by_cases h0 : req.prevLogIndex = 0
  · exact Or.inl h0
  · obtain ⟨e, he, hterm⟩ := h.resolve_left h0
    have hlt : req.prevLogIndex - 1 < req.prevLogIndex := by omega
    refine Or.inr ⟨e, ?_, hterm⟩
    rw [← List.getElem?_take_of_lt hlt, htake, List.getElem?_take_of_lt hlt]
    exact he

/-- A refused request is refused again. -/
theorem exactAppend_rejected (hc : node.log.Contiguous) (hterm : node.currentTerm ≤ req.term)
    (hprev : node.prevMismatch req = true) : node.ExactAppend req := by
  have hnot : ¬ node.HasPrev req := by
    rw [← prevMismatch_eq_false_iff hc, hprev]
    decide
  obtain ⟨hfail, hnode⟩ := handleAppendEntries_rejected hterm hprev
  have hagain := handleAppendEntries_rejected (Nat.le_of_eq (acceptLeader_term hterm))
    ((prevMismatch_acceptLeader node req).trans hprev)
  have hfields := node.acceptLeader_fields req
  have hfields' := (node.acceptLeader req).acceptLeader_fields req
  refine ⟨?_, ?_, fun h => absurd h hnot, fun h => absurd h hnot, ?_, ?_⟩
  · rw [hfail]
    exact ⟨fun h => absurd h (by decide), fun h => absurd h hnot⟩
  · rw [hnode, hfields.1]
    exact hc
  · rw [hnode, hagain.2, hfields'.1]
  · rw [hnode, hagain.2, hfields'.2.2]

theorem exactAppend_accepted (hc : node.log.Contiguous) (hterm : node.currentTerm ≤ req.term)
    (hprev : node.prevMismatch req = false) : node.ExactAppend req := by
  have hhas := (prevMismatch_eq_false_iff hc).mp hprev
  obtain ⟨hok, hlog, hterm', hcommit⟩ := handleAppendEntries_accepted hterm hprev
  obtain ⟨hentries, hcont⟩ := appendLoop_entries hc hhas.le req.entries
  -- the second time the entry in front is still there, and the loop finds every entry
  have hprev' : (node.handleAppendEntries req).1.prevMismatch req = false :=
    (prevMismatch_eq_false_iff (by rw [hlog]; exact hcont)).mpr (hhas.again hc hlog)
  obtain ⟨_, hlog', _, hcommit'⟩ :=
    handleAppendEntries_accepted (Nat.le_of_eq hterm') hprev'
  have hsame : appendLoop (node.handleAppendEntries req).1.log req.prevLogIndex req.entries =
      (node.handleAppendEntries req).1.log := by
    rw [hlog]
    exact appendLoop_again hc hhas.le req.entries
  refine ⟨⟨fun _ => hhas, fun _ => hok⟩, ?_, fun _ hagree => ?_, ?_, hlog'.trans hsame, ?_⟩
  · rw [hlog]
    exact hcont
  · rw [hlog, hentries, overwrite_of_agree hhas.le (agreesFrom_renumber.mpr hagree), drop_renumber,
      Nat.add_sub_cancel' hhas.le]
  · intro _ j entry existing hentry hexisting hne hbefore
    have hentry' : (renumber req.prevLogIndex req.entries)[j]? =
        some { entry with index := req.prevLogIndex + j + 1 } := by
      rw [getElem?_renumber, hentry]
      rfl
    have hbefore' : AgreesFrom entryTerm node.log.entries req.prevLogIndex
        ((renumber req.prevLogIndex req.entries).take j) := by
      rw [take_renumber]
      exact agreesFrom_renumber.mpr hbefore
    rw [hlog, hentries, overwrite_of_conflict hentry' hexisting hne hbefore', drop_renumber]
  · rw [hcommit', hsame, hlog]
    rw [hcommit]
    split
    · split
      · rfl
      · rfl
    · rfl

end Handled

/-! ## Two requests -/

/-- The request carries a piece of `T`. -/
structure CutFrom (T : List LogEntry) (req : AppendEntriesRequest) : Prop where
  prev : req.prevLogIndex = 0 ∨
    ∃ e, T[req.prevLogIndex - 1]? = some e ∧ e.term = req.prevLogTerm
  entries : (T.drop req.prevLogIndex).take req.entries.length = req.entries

/-- The requests of a run are such pieces. -/
theorem cutFrom_of_sim {h : Hist} {caller callee : NodeId} {req : AppendEntriesRequest}
    (S : AppendReqSim h caller callee req) : CutFrom (h.book req.term) req := by
  refine ⟨?_, S.entries⟩
  by_cases h0 : req.prevLogIndex = 0
  · exact Or.inl h0
  · exact Or.inr (S.prev_term (by omega))

/-- **Two pieces of one leader's log leave the same log in either order**, if all four requests are
accepted. -/
def OrderInsensitive (node : RaftNode) : Prop :=
  ∀ (T : List LogEntry) (r₁ r₂ : AppendEntriesRequest), Numbered T →
    LogsMatch entryTerm node.log.entries T → CutFrom T r₁ → CutFrom T r₂ →
    (node.handleAppendEntries r₁).2.success = true →
    ((node.handleAppendEntries r₁).1.handleAppendEntries r₂).2.success = true →
    (node.handleAppendEntries r₂).2.success = true →
    ((node.handleAppendEntries r₂).1.handleAppendEntries r₁).2.success = true →
      ((node.handleAppendEntries r₁).1.handleAppendEntries r₂).1.log.entries =
          ((node.handleAppendEntries r₂).1.handleAppendEntries r₁).1.log.entries ∧
        ((node.handleAppendEntries r₁).1.handleAppendEntries r₂).1.log.wal.records =
          ((node.handleAppendEntries r₂).1.handleAppendEntries r₁).1.log.wal.records

/-- An accepted request is not stale, and its check has passed. -/
theorem handleAppendEntries_success {node : RaftNode} {req : AppendEntriesRequest}
    (h : (node.handleAppendEntries req).2.success = true) :
    node.currentTerm ≤ req.term ∧ node.prevMismatch req = false := by
  by_cases hterm : node.currentTerm ≤ req.term
  · refine ⟨hterm, ?_⟩
    rw [handleAppendEntries_of_le hterm] at h
    by_contra hprev
    rw [if_pos (by simpa using hprev)] at h
    cases h
  · unfold handleAppendEntries at h
    rw [if_pos (by omega)] at h
    cases h

/-- An accepted piece of `T` is spliced into the log, which matches `T` afterwards too. -/
theorem handleAppendEntries_spliced {node : RaftNode} {req : AppendEntriesRequest}
    {T : List LogEntry} (hc : node.log.Contiguous) (hT : Numbered T)
    (hmatch : LogsMatch entryTerm node.log.entries T) (hcut : CutFrom T req)
    (h : (node.handleAppendEntries req).2.success = true) :
    Spliced entryTerm node.log.entries (T.take (req.prevLogIndex + req.entries.length))
        (node.handleAppendEntries req).1.log.entries ∧
      (node.handleAppendEntries req).1.log.Contiguous ∧
      LogsMatch entryTerm (node.handleAppendEntries req).1.log.entries T := by
  obtain ⟨hterm, hprev⟩ := handleAppendEntries_success h
  obtain ⟨_, hlog, _⟩ := handleAppendEntries_accepted hterm hprev
  rw [hlog]
  have hfront : 0 < req.prevLogIndex → ∃ a b, node.log.entries[req.prevLogIndex - 1]? = some a ∧
      T[req.prevLogIndex - 1]? = some b ∧ a.term = b.term := by
    intro h0
    obtain ⟨a, ha, hat⟩ := ((prevMismatch_eq_false_iff hc).mp hprev).resolve_left (by omega)
    obtain ⟨b, hb, hbt⟩ := hcut.prev.resolve_left (by omega)
    exact ⟨a, b, ha, hb, hat.trans hbt.symm⟩
  obtain ⟨hsplice, hcont⟩ := appendLoop_spliced hc hT hmatch hfront hcut.entries
  exact ⟨hsplice, hcont, hsplice.logsMatch hmatch (List.take_prefix _ T)⟩

theorem orderInsensitive {node : RaftNode} (hc : node.log.Contiguous) : node.OrderInsensitive := by
  intro T r₁ r₂ hT hmatch hcut₁ hcut₂ h₁ h₁₂ h₂ h₂₁
  obtain ⟨hs₁, hc₁, hm₁⟩ := handleAppendEntries_spliced hc hT hmatch hcut₁ h₁
  obtain ⟨hs₂, hc₂, hm₂⟩ := handleAppendEntries_spliced hc hT hmatch hcut₂ h₂
  obtain ⟨hs₁₂, hc₁₂, _⟩ := handleAppendEntries_spliced hc₁ hT hm₁ hcut₂ h₁₂
  obtain ⟨hs₂₁, hc₂₁, _⟩ := handleAppendEntries_spliced hc₂ hT hm₂ hcut₁ h₂₁
  have hsame := spliced_comm (List.take_prefix _ T) (List.take_prefix _ T) hs₁ hs₁₂ hs₂ hs₂₁
  exact ⟨hsame, by rw [hc₁₂.records, hc₂₁.records, hsame]⟩

/-- **A follower's append is exact, idempotent and order-insensitive.** -/
theorem follower_append_exact {node : RaftNode} (hlog : node.log.Contiguous) :
    (∀ req : AppendEntriesRequest, node.currentTerm ≤ req.term → node.ExactAppend req) ∧
      node.OrderInsensitive := by
  refine ⟨fun req hterm => ?_, orderInsensitive hlog⟩
  cases hprev : node.prevMismatch req with
  | false => exact exactAppend_accepted hlog hterm hprev
  | true => exact exactAppend_rejected hlog hterm hprev

/-- A log of two entries of term 1, and a request of term 2 that agrees with the first and replaces
the second. -/
theorem follower_append_exact_conflict :
    (({ fresh (fun _ => 0) with
        log := (Log.append {} ⟨1, 0, .kSet, [97], [49]⟩).append ⟨1, 0, .kSet, [98], [50]⟩ } :
      RaftNode).handleAppendEntries
        { term := 2, leaderId := 1, prevLogIndex := 0, prevLogTerm := 0, leaderCommit := 0
          entries := [⟨1, 1, .kSet, [97], [49]⟩, ⟨2, 2, .kSet, [99], [51]⟩] }).1.log.entries =
      [⟨1, 1, .kSet, [97], [49]⟩, ⟨2, 2, .kSet, [99], [51]⟩] := by
  refine ((follower_append_exact ?_).1 _ (by decide)).replaced (Or.inl rfl) 1 _ _ rfl rfl
    (by decide) ?_
  · exact Log.append_contiguous (Log.append_contiguous Log.Contiguous.empty _) _
  · exact (AgreesFrom.nil 1).cons fun a ha => by cases ha; rfl

end RaftNode

end NeuralKV
