import NeuralKV.Persistence.DurableStorage

/-!
# Group commit

Any number of threads call `WalWriter::Append` and `WalWriter::Sync` of
`src/persistence/wal_writer.cpp` on one writer.  A step is one lock-held section: `Append`, or a
section of `Sync` from where it takes the lock to where it waits or returns.

* `GroupCommit` — the writer, its file, the threads inside `Sync`, and a history of what was
  written, flushed and acknowledged.  The batch leader collects records in ticks, as the source
  does; `late` says that the deadline of its batch has passed.
* `GroupMove`, `group_move` — what a section can do.
* `group_commit_sound` — **in every interleaving** there is at most one batch leader,
  `synced_index_` stays below `last_index_` and never falls, and no `Sync(i)` returns `Ok` before an
  `fsync` that came after the bytes of every record up to `i`.
* `acked_records_scanned` — **a failed append leaves no trace** if no record is appended behind part
  of another one; `partial_append_hides_acked` is what happens otherwise.
-/

set_option autoImplicit false

namespace NeuralKV

open Framing
open Runs (putThread anyStep exists_run)

/-! ## The sections of `Sync` -/

/-- `kGroupCommitMaxRecords`. -/
def kGroupCommitMaxRecords : Int := 16

/-- The condition of the collecting loop.  The difference of the two counters is converted to `int`,
32 bits in two's complement. -/
def WalWriter.batchOpen (wal : WalWriter) : Bool :=
  decide (Int.bmod ((wal.lastIndex : Int) - wal.syncedIndex) (2 ^ 32) < kGroupCommitMaxRecords)

/-- Where a thread stands inside `Sync`; `observed` is the local `observed_index`. -/
inductive SyncStage where
  | entering
  | waiting
  | collecting (observed : Nat)
  deriving DecidableEq, Repr

/-- A call `Sync(atLeastIndex)` in progress. -/
structure SyncCall where
  atLeastIndex : Nat
  stage : SyncStage := .entering
  deriving DecidableEq, Repr

/-- The thread has set `flush_in_progress_` and not cleared it. -/
def SyncCall.Leads (c : SyncCall) : Prop := ∃ observed, c.stage = .collecting observed

/-- What happened to the file and to the callers: an `Append` that returned its index, a successful
`fsync`, a `Sync` that returned `Ok`. -/
inductive WalEvent where
  | wrote (record : WalRecord)
  | fsynced
  | returnedOk (atLeastIndex : Nat)
  deriving DecidableEq, Repr

/-- `history` is in the order in which things happened. -/
structure GroupCommit where
  wal : WalWriter
  file : Bytes
  calls : List SyncCall := []
  history : List WalEvent := []

/-- `resume thread late errno` is the next section of a thread inside `Sync`; `errno` is set when
the `fsync`, if there is one, fails. -/
inductive GroupAction where
  | append (record : WalRecord) (outcome : WriteOutcome)
  | sync (atLeastIndex : Nat)
  | resume (thread : Nat) (late : Bool) (errno : Option String)
  deriving DecidableEq, Repr

namespace GroupCommit

/-- A process opens `file`. -/
def opened (file : Bytes) : GroupCommit where
  wal := WalWriter.openOrCreate file
  file := file

/-- Thread `k` has gone through a section. -/
def put (s : GroupCommit) (wal : WalWriter) (k : Nat) (next : Option SyncCall)
    (events : List WalEvent) : GroupCommit where
  wal := wal
  file := s.file
  calls := putThread s.calls k next
  history := s.history ++ events

/-- The batch leader flushes; it returns `Ok` exactly if `fsync` succeeds. -/
def flush (s : GroupCommit) (wal : WalWriter) (k : Nat) (c : SyncCall) (errno : Option String) :
    GroupCommit :=
  s.put (wal.syncFlush errno).1 k none
    (if errno = none then [.fsynced, .returnedOk c.atLeastIndex] else [])

/-- Head of the collecting loop: wait for a tick, or flush. -/
def collect (s : GroupCommit) (wal : WalWriter) (k : Nat) (c : SyncCall) (late : Bool)
    (errno : Option String) : GroupCommit :=
  if wal.batchOpen && !late then
    s.put wal k (some { c with stage := .collecting wal.lastIndex }) []
  else s.flush wal k c errno

/-- The rest of a section, after `Sync` has found out whether it returns, waits or leads. -/
def afterSync (s : GroupCommit) (k : Nat) (c : SyncCall) (late : Bool) (errno : Option String) :
    WalWriter × SyncOutcome → GroupCommit
  | (wal, .returned status) =>
    s.put wal k none (if status.ok then [.returnedOk c.atLeastIndex] else [])
  | (wal, .waiting) => s.put wal k (some { c with stage := .waiting }) []
  | (wal, .leading) => s.collect wal k c late errno

/-- One section.  A thread calls `Sync` only with an index that `Append` has returned; a `write`
that fails has not written all, and no `write` gets beyond the range of file offsets. -/
def step (s : GroupCommit) : GroupAction → Option GroupCommit
  | .append record outcome =>
    let (wal, bytes, result) := s.wal.append record outcome
    if maxFileSize < (s.file ++ bytes).length then none
    else
      match outcome, result with
      | .failed written _, _ =>
        if written < (encodeWalRecord { record with index := s.wal.lastIndex + 1 }).length then
          some { s with file := s.file ++ bytes }
        else none
      | .complete, .error _ => some s
      | .complete, .ok record =>
        some { s with wal, file := s.file ++ bytes, history := s.history ++ [.wrote record] }
  | .sync i =>
    if s.history.any (fun e => match e with | .wrote r => r.index == i | _ => false) then
      some { s with calls := s.calls ++ [{ atLeastIndex := i }] }
    else none
  | .resume k late errno =>
    match s.calls[k]? with
    | none => none
    | some c =>
      match c.stage with
      | .entering => some (s.afterSync k c late errno (s.wal.syncEnter c.atLeastIndex))
      | .waiting => (s.wal.syncWake c.atLeastIndex).map (s.afterSync k c late errno)
      | .collecting observed =>
        if s.wal.lastIndex = observed then some (s.flush s.wal k c errno)
        else some (s.collect s.wal k c late errno)

/-- The states reached from `file` by sections that all satisfy `ok`. -/
abbrev Run (file : Bytes) (ok : GroupCommit → GroupAction → Prop) : GroupCommit → Prop :=
  Runs.Run step (opened file) ok

end GroupCommit

/-! ## Moves -/

/-- What a section can be. -/
inductive GroupMove (s : GroupCommit) : GroupAction → GroupCommit → Prop where
  | idle {a : GroupAction} : GroupMove s a s
  | appended {record : WalRecord} (hopen : s.wal.openStatus.ok = true)
      (hsize : (s.file ++ encodeWalRecord
        { record with index := s.wal.lastIndex + 1 }).length ≤ maxFileSize) :
      GroupMove s (.append record .complete)
        { s with
          wal := { s.wal with lastIndex := s.wal.lastIndex + 1 }
          file := s.file ++ encodeWalRecord { record with index := s.wal.lastIndex + 1 }
          history := s.history ++ [.wrote { record with index := s.wal.lastIndex + 1 }] }
  | appendFailed {record : WalRecord} {written : Nat} {errno : String}
      (hopen : s.wal.openStatus.ok = true)
      (hwritten : written < (encodeWalRecord
        { record with index := s.wal.lastIndex + 1 }).length)
      (hsize : (s.file ++ (encodeWalRecord
        { record with index := s.wal.lastIndex + 1 }).take written).length ≤ maxFileSize) :
      GroupMove s (.append record (.failed written errno))
        { s with
          file := s.file ++ (encodeWalRecord
            { record with index := s.wal.lastIndex + 1 }).take written }
  | called {r : WalRecord} (hr : .wrote r ∈ s.history) :
      GroupMove s (.sync r.index) { s with calls := s.calls ++ [{ atLeastIndex := r.index }] }
  | refused {a : GroupAction} {k : Nat} {c : SyncCall} (hc : s.calls[k]? = some c) :
      GroupMove s a (s.put s.wal k none [])
  | covered {a : GroupAction} {k : Nat} {c : SyncCall} (hc : s.calls[k]? = some c)
      (hle : c.atLeastIndex ≤ s.wal.syncedIndex) :
      GroupMove s a (s.put s.wal k none [.returnedOk c.atLeastIndex])
  | waits {a : GroupAction} {k : Nat} {c : SyncCall} (hc : s.calls[k]? = some c) :
      GroupMove s a (s.put s.wal k (some { c with stage := .waiting }) [])
  | leads {a : GroupAction} {k : Nat} {c : SyncCall} (hc : s.calls[k]? = some c)
      (hfree : s.wal.flushInProgress = false) :
      GroupMove s a (s.put { s.wal with flushInProgress := true } k
        (some { c with stage := .collecting s.wal.lastIndex }) [])
  | ticks {a : GroupAction} {k : Nat} {c : SyncCall} (hc : s.calls[k]? = some c)
      (hlead : c.Leads) :
      GroupMove s a (s.put s.wal k (some { c with stage := .collecting s.wal.lastIndex }) [])
  | flushed {a : GroupAction} {k : Nat} {c : SyncCall} (hc : s.calls[k]? = some c)
      (hlead : c.Leads ∨ s.wal.flushInProgress = false) :
      GroupMove s a (s.put
        { s.wal with syncedIndex := s.wal.lastIndex, flushInProgress := false } k none
        [.fsynced, .returnedOk c.atLeastIndex])
  | flushFailed {a : GroupAction} {k : Nat} {c : SyncCall} (hc : s.calls[k]? = some c)
      (hlead : c.Leads ∨ s.wal.flushInProgress = false) :
      GroupMove s a (s.put { s.wal with flushInProgress := false } k none [])

section Inversion

variable {s s' : GroupCommit} {k : Nat} {c : SyncCall}

theorem flush_move (hc : s.calls[k]? = some c) {flag : Bool}
    (hlead : c.Leads ∨ s.wal.flushInProgress = false) (a : GroupAction) (errno : Option String) :
    GroupMove s a (s.flush { s.wal with flushInProgress := flag } k c errno) := by
  cases errno with
  | none => exact .flushed hc hlead
  | some errno => exact .flushFailed hc hlead

/-- A thread takes the lead, and waits for a tick or flushes at once. -/
theorem collect_move (hc : s.calls[k]? = some c) (hfree : s.wal.flushInProgress = false)
    (a : GroupAction) (late : Bool) (errno : Option String) :
    GroupMove s a (s.collect { s.wal with flushInProgress := true } k c late errno) := by
  unfold GroupCommit.collect
  split
  · exact .leads hc hfree
  · exact flush_move hc (Or.inr hfree) a errno

theorem entering_move (hc : s.calls[k]? = some c) (a : GroupAction) (late : Bool)
    (errno : Option String) :
    GroupMove s a (s.afterSync k c late errno (s.wal.syncEnter c.atLeastIndex)) := by
  unfold WalWriter.syncEnter
  split
  · rename_i hopen
    have hopen' : s.wal.openStatus.ok = false := by simpa using hopen
    simp only [GroupCommit.afterSync, hopen', Bool.false_eq_true, if_false]
    exact .refused hc
  · split
    · exact .covered hc ‹_›
    · split
      · exact .waits hc
      · rename_i hflush
        exact collect_move hc (by simpa using hflush) a late errno

theorem waiting_move (hc : s.calls[k]? = some c) (a : GroupAction) (late : Bool)
    (errno : Option String)
    (h : (s.wal.syncWake c.atLeastIndex).map (s.afterSync k c late errno) = some s') :
    GroupMove s a s' := by
  unfold WalWriter.syncWake at h
  split at h
  · cases h
    exact .covered hc ‹_›
  · split at h
    · cases h
    · rename_i hflush
      cases h
      exact collect_move hc (by simpa using hflush) a late errno

theorem append_move {record : WalRecord} {outcome : WriteOutcome}
    (h : s.step (.append record outcome) = some s') : GroupMove s (.append record outcome) s' := by
  simp only [GroupCommit.step, WalWriter.append] at h
  cases hopen : s.wal.openStatus.ok with
  | false =>
    -- a writer that could not be opened refuses every append
    simp only [hopen, Bool.not_false, if_true, List.append_nil] at h
    split at h
    · cases h
    · split at h
      · split at h
        · cases h
          exact .idle
        · cases h
      · cases h
        exact .idle
      · rename_i heq
        cases heq
  | true =>
    simp only [hopen, Bool.not_true, Bool.false_eq_true, if_false] at h
    cases outcome with
    | complete =>
      simp only at h
      split at h
      · cases h
      · cases h
        exact .appended hopen (by omega)
    | failed written errno =>
      simp only at h
      split at h
      · cases h
      · split at h
        · cases h
          exact .appendFailed hopen ‹_› (by omega)
        · cases h

/-- **Every section is one of the moves.** -/
theorem group_move {a : GroupAction} (h : s.step a = some s') : GroupMove s a s' := by
  cases a with
  | append record outcome => exact append_move h
  | sync i =>
    simp only [GroupCommit.step] at h
    split at h
    · rename_i hany
      obtain ⟨e, he, hi⟩ := List.any_eq_true.mp hany
      cases h
      cases e with
      | wrote r =>
        obtain rfl : r.index = i := by simpa using hi
        exact .called he
      | fsynced => cases hi
      | returnedOk j => cases hi
    · cases h
  | resume k late errno =>
    simp only [GroupCommit.step] at h
    split at h
    · cases h
    · rename_i c hc
      split at h
      · cases h
        exact entering_move hc _ late errno
      · exact waiting_move hc _ late errno h
      · rename_i observed hstage
        have hlead : c.Leads := ⟨observed, hstage⟩
        split at h
        · cases h
          exact flush_move hc (Or.inl hlead) _ errno
        · cases h
          unfold GroupCommit.collect
          split
          · exact .ticks hc hlead
          · exact flush_move hc (Or.inl hlead) _ errno

end Inversion

/-! ## What an acknowledgement rests on -/

/-- Before position `p` of the history there is a successful `fsync` behind every record up to `i`:
all of those after the last one found at the start, `first`, are written before it, and none is
written after it. -/
def FlushedBefore (first : Nat) (history : List WalEvent) (p i : Nat) : Prop :=
  ∃ q < p, history[q]? = some .fsynced ∧
    (∀ j r, history[j]? = some (.wrote r) → r.index ≤ i → j < q) ∧
    ∀ n, first < n → n ≤ i → ∃ j r, j < q ∧ history[j]? = some (.wrote r) ∧ r.index = n

theorem FlushedBefore.mono {first : Nat} {history : List WalEvent} {p p' i i' : Nat}
    (h : FlushedBefore first history p i) (hp : p ≤ p') (hi : i' ≤ i) :
    FlushedBefore first history p' i' := by
  obtain ⟨q, hq, hsync, hbefore, hall⟩ := h
  refine ⟨q, Nat.lt_of_lt_of_le hq hp, hsync, ?_, ?_⟩
  · intro j r hj hr
    exact hbefore j r hj (Nat.le_trans hr hi)
  · intro n hn hle
    exact hall n hn (Nat.le_trans hle hi)

/-- What happens later does not take it back, if later records have higher indices. -/
theorem FlushedBefore.append {first : Nat} {history events : List WalEvent} {p i : Nat}
    (h : FlushedBefore first history p i) (hlater : ∀ r, .wrote r ∈ events → i < r.index) :
    FlushedBefore first (history ++ events) p i := by
  obtain ⟨q, hq, hsync, hbefore, hall⟩ := h
  have hqlt := (List.getElem?_eq_some_iff.mp hsync).1
  refine ⟨q, hq, ?_, ?_, ?_⟩
  · rw [List.getElem?_append_left hqlt]
    exact hsync
  · intro j r hj hr
    by_cases hlt : j < history.length
    · rw [List.getElem?_append_left hlt] at hj
      exact hbefore j r hj hr
    · rw [List.getElem?_append_right (Nat.le_of_not_lt hlt)] at hj
      have hmem := List.mem_of_getElem? hj
      have := hlater r hmem
      omega
  · intro n hn hle
    obtain ⟨j, r, hj, hr, hindex⟩ := hall n hn hle
    refine ⟨j, r, hj, ?_, hindex⟩
    rw [List.getElem?_append_left (by omega)]
    exact hr

/-! ## The invariant -/

/-- Not both of them lead. -/
def NotBothLead (c d : SyncCall) : Prop := ¬ (c.Leads ∧ d.Leads)

theorem NotBothLead.symm (c d : SyncCall) (h : NotBothLead c d) : NotBothLead d c :=
  fun hdc => h hdc.symm

/-- The invariant of group commit; `first` is `last_index_` when the file was opened. -/
structure Batched (first : Nat) (s : GroupCommit) : Prop where
  syncedLe : s.wal.syncedIndex ≤ s.wal.lastIndex
  firstLe : first ≤ s.wal.lastIndex
  inFile : s.wal.lastIndex ≤ s.file.length
  wrote : ∀ r, .wrote r ∈ s.history → first < r.index ∧ r.index ≤ s.wal.lastIndex
  present : ∀ n, first < n → n ≤ s.wal.lastIndex → ∃ r, .wrote r ∈ s.history ∧ r.index = n
  asked : ∀ c ∈ s.calls, first < c.atLeastIndex ∧ c.atLeastIndex ≤ s.wal.lastIndex
  flushed : first < s.wal.syncedIndex →
    FlushedBefore first s.history s.history.length s.wal.syncedIndex
  returned : ∀ p i, s.history[p]? = some (.returnedOk i) →
    i ≤ s.wal.lastIndex ∧ FlushedBefore first s.history p i
  apart : s.calls.Pairwise NotBothLead
  leading : ∀ c ∈ s.calls, c.Leads → s.wal.flushInProgress = true

namespace Batched

variable {first : Nat} {s s' : GroupCommit}

theorem lastIndexOf_le_length {file : Bytes} (hnum : Numbered (scanWal file).frames) :
    lastIndexOf (scanWal file).frames ≤ file.length := by
  obtain ⟨_, hfile⟩ := scanWal_sound file
  have hlen : 1 * (scanWal file).frames.length ≤
      (encodeAll encodeWalRecord (scanWal file).frames).length :=
    le_length_encodeAll fun r _ => List.length_pos_iff.mpr (walReads.nonempty r)
  have hlast : lastIndexOf (scanWal file).frames = (scanWal file).frames.length := hnum.getLast
  rw [hlast]
  conv_rhs => rw [hfile]
  rw [List.length_append]
  omega

theorem openOrCreate_fields (file : Bytes) :
    (WalWriter.openOrCreate file).lastIndex = lastIndexOf (scanWal file).frames ∧
      (WalWriter.openOrCreate file).syncedIndex ≤ lastIndexOf (scanWal file).frames ∧
      (WalWriter.openOrCreate file).flushInProgress = false := by
  unfold WalWriter.openOrCreate
  simp only
  cases (scanWal file).error with
  | none => exact ⟨rfl, Nat.le_refl _, rfl⟩
  | some status => exact ⟨rfl, Nat.zero_le _, rfl⟩

theorem opened {file : Bytes} (hnum : Numbered (scanWal file).frames) :
    Batched (lastIndexOf (scanWal file).frames) (GroupCommit.opened file) := by
  obtain ⟨hlast, hsynced, _⟩ := openOrCreate_fields file
  refine ⟨?_, ?_, ?_, ?_, ?_, ?_, ?_, ?_, List.Pairwise.nil, ?_⟩
  · simpa only [GroupCommit.opened, hlast] using hsynced
  · simp only [GroupCommit.opened, hlast, Nat.le_refl]
  · simpa only [GroupCommit.opened, hlast] using lastIndexOf_le_length hnum
  · intro r hr
    cases hr
  · intro n hn hle
    simp only [GroupCommit.opened, hlast] at hle
    omega
  · intro c hc
    cases hc
  · intro hlt
    simp only [GroupCommit.opened] at hlt
    omega
  · intro p i hp
    simp [GroupCommit.opened] at hp
  · intro c hc
    cases hc

/-- An acknowledgement that happens now, or has happened before. -/
theorem returned_append (h : Batched first s) {events : List WalEvent} {last : Nat}
    (hlast : s.wal.lastIndex ≤ last)
    (hlater : ∀ r, .wrote r ∈ events → s.wal.lastIndex < r.index)
    (hnew : ∀ p i, events[p]? = some (.returnedOk i) →
      i ≤ last ∧ FlushedBefore first (s.history ++ events) (s.history.length + p) i) :
    ∀ p i, (s.history ++ events)[p]? = some (.returnedOk i) →
      i ≤ last ∧ FlushedBefore first (s.history ++ events) p i := by
  intro p i hp
  by_cases hlt : p < s.history.length
  · rw [List.getElem?_append_left hlt] at hp
    obtain ⟨hle, hflushed⟩ := h.returned p i hp
    refine ⟨Nat.le_trans hle hlast, hflushed.append ?_⟩
    intro r hr
    exact Nat.lt_of_le_of_lt hle (hlater r hr)
  · rw [List.getElem?_append_right (Nat.le_of_not_lt hlt)] at hp
    have hsum : s.history.length + (p - s.history.length) = p := by omega
    rw [← hsum]
    exact hnew _ i hp

/-- A section that leaves counters and history alone, and does not end a lead. -/
theorem put_quiet (h : Batched first s) {k : Nat} {c : SyncCall} (hc : s.calls[k]? = some c)
    {next : Option SyncCall} {flag : Bool}
    (hindex : ∀ d, next = some d → d.atLeastIndex = c.atLeastIndex)
    (hflag : s.wal.flushInProgress = true → flag = true)
    (hnext : ∀ d, next = some d → d.Leads →
      flag = true ∧ (c.Leads ∨ s.wal.flushInProgress = false)) :
    Batched first (s.put { s.wal with flushInProgress := flag } k next []) := by
  have hasked := h.asked c (List.mem_of_getElem? hc)
  refine ⟨h.syncedLe, h.firstLe, h.inFile, ?_, ?_, ?_, ?_, ?_, ?_, ?_⟩
  · simpa only [GroupCommit.put, List.append_nil] using h.wrote
  · simpa only [GroupCommit.put, List.append_nil] using h.present
  · intro d hd
    rcases Runs.mem_putThread hd with hd | hd
    · rw [hindex d hd]
      exact hasked
    · exact h.asked d hd
  · simpa only [GroupCommit.put, List.append_nil] using h.flushed
  · simpa only [GroupCommit.put, List.append_nil] using h.returned
  · refine Runs.pairwise_putThread NotBothLead.symm h.apart ?_
    rintro d hd i a hik ha ⟨hdlead, halead⟩
    -- another leader would have kept the flag set
    rcases (hnext d hd hdlead).2 with hclead | hfree
    · exact Runs.pairwise_getElem? NotBothLead.symm h.apart (Ne.symm hik) hc ha ⟨hclead, halead⟩
    · have hset := h.leading a (List.mem_of_getElem? ha) halead
      rw [hfree] at hset
      cases hset
  · intro d hd hlead
    rcases Runs.mem_putThread hd with hd | hd
    · exact (hnext d hd hlead).1
    · exact hflag (h.leading d hd hlead)

/-- When the leader has left, nobody leads. -/
theorem no_leader (h : Batched first s) {k : Nat} {c : SyncCall} (hc : s.calls[k]? = some c)
    (hlead : c.Leads ∨ s.wal.flushInProgress = false) :
    ∀ d ∈ putThread s.calls k none, ¬ d.Leads := by
  intro d hd hdlead
  obtain ⟨i, hik, hi⟩ := List.mem_eraseIdx_iff_getElem?.mp hd
  rcases hlead with hclead | hfree
  · exact Runs.pairwise_getElem? NotBothLead.symm h.apart (Ne.symm hik) hc hi ⟨hclead, hdlead⟩
  · have hset := h.leading d (List.mem_of_getElem? hi) hdlead
    rw [hfree] at hset
    cases hset

theorem appended (h : Batched first s) (record : WalRecord) :
    Batched first
      { s with
        wal := { s.wal with lastIndex := s.wal.lastIndex + 1 }
        file := s.file ++ encodeWalRecord { record with index := s.wal.lastIndex + 1 }
        history := s.history ++ [.wrote { record with index := s.wal.lastIndex + 1 }] } := by
  have hsynced := h.syncedLe
  have hfirst := h.firstLe
  have hlater : ∀ r, WalEvent.wrote r ∈
      [WalEvent.wrote { record with index := s.wal.lastIndex + 1 }] → s.wal.lastIndex < r.index := by
    intro r hr
    cases List.mem_singleton.mp hr
    exact Nat.lt_succ_self _
  refine ⟨Nat.le_succ_of_le hsynced, Nat.le_succ_of_le hfirst, ?_, ?_, ?_, ?_, ?_, ?_, h.apart,
    h.leading⟩
  · have hfile := h.inFile
    have hlen := WalRecord.encode_length { record with index := s.wal.lastIndex + 1 }
    simp only [List.length_append, hlen, kFixedHeaderSize]
    omega
  · intro r hr
    rcases List.mem_append.mp hr with hr | hr
    · obtain ⟨hlt, hle⟩ := h.wrote r hr
      exact ⟨hlt, Nat.le_succ_of_le hle⟩
    · cases List.mem_singleton.mp hr
      exact ⟨Nat.lt_succ_of_le hfirst, Nat.le_refl _⟩
  · intro n hn hle
    by_cases hlast : n = s.wal.lastIndex + 1
    · exact ⟨_, List.mem_append_right _ List.mem_cons_self, hlast.symm⟩
    · obtain ⟨r, hr, hindex⟩ := h.present n hn (by simp only at hle; omega)
      exact ⟨r, List.mem_append_left _ hr, hindex⟩
  · intro c hc
    obtain ⟨hlt, hle⟩ := h.asked c hc
    exact ⟨hlt, Nat.le_succ_of_le hle⟩
  · intro hlt
    have hold := (h.flushed hlt).append fun r hr => Nat.lt_of_le_of_lt hsynced (hlater r hr)
    exact hold.mono (by simp) (Nat.le_refl _)
  · refine h.returned_append (Nat.le_succ _) hlater ?_
    intro p i hp
    cases p with
    | zero => cases hp
    | succ p => simp at hp

/-- A thread leaves `Sync`: what is left to show is what its acknowledgement rests on, and that the
flag stays set for a leader. -/
theorem leave (h : Batched first s) {k synced : Nat} {flag : Bool} {events : List WalEvent}
    (hsynced : synced ≤ s.wal.lastIndex) (hnone : ∀ r, .wrote r ∉ events)
    (hflushed : first < synced →
      FlushedBefore first (s.history ++ events) (s.history ++ events).length synced)
    (hnew : ∀ p i, events[p]? = some (.returnedOk i) → i ≤ s.wal.lastIndex ∧
      FlushedBefore first (s.history ++ events) (s.history.length + p) i)
    (hlead : ∀ d ∈ putThread s.calls k none, d.Leads → flag = true) :
    Batched first
      (s.put { s.wal with syncedIndex := synced, flushInProgress := flag } k none events) := by
  refine ⟨hsynced, h.firstLe, h.inFile, ?_, ?_, ?_, hflushed, ?_, ?_, hlead⟩
  · intro r hr
    rcases List.mem_append.mp hr with hr | hr
    · exact h.wrote r hr
    · exact absurd hr (hnone r)
  · intro n hn hle
    obtain ⟨r, hr, hindex⟩ := h.present n hn hle
    exact ⟨r, List.mem_append_left _ hr, hindex⟩
  · intro d hd
    exact h.asked d (List.mem_of_mem_eraseIdx hd)
  · exact h.returned_append (Nat.le_refl _) (fun r hr => absurd hr (hnone r)) hnew
  · exact h.apart.sublist (List.eraseIdx_sublist _ _)

/-- A thread leaves with an error. -/
theorem leave_failed (h : Batched first s) {k : Nat} {flag : Bool}
    (hlead : ∀ d ∈ putThread s.calls k none, d.Leads → flag = true) :
    Batched first (s.put { s.wal with flushInProgress := flag } k none []) := by
  refine h.leave h.syncedLe (fun r hr => by cases hr) ?_ ?_ hlead
  · intro hlt
    simpa only [List.append_nil] using h.flushed hlt
  · intro p i hp
    simp at hp

/-- A `Sync` whose records a flush has covered returns. -/
theorem covered (h : Batched first s) {k : Nat} {c : SyncCall} (hc : s.calls[k]? = some c)
    (hle : c.atLeastIndex ≤ s.wal.syncedIndex) :
    Batched first (s.put s.wal k none [.returnedOk c.atLeastIndex]) := by
  obtain ⟨hgt, hlast⟩ := h.asked c (List.mem_of_getElem? hc)
  have hnone : ∀ r, WalEvent.wrote r ∉ [WalEvent.returnedOk c.atLeastIndex] := by simp
  have hflushed := (h.flushed (Nat.lt_of_lt_of_le hgt hle)).append
    fun r hr => absurd hr (hnone r)
  refine h.leave h.syncedLe hnone (fun _ => ?_) ?_ ?_
  · exact hflushed.mono (by simp) (Nat.le_refl _)
  · intro p i hp
    cases p with
    | zero =>
      cases hp
      exact ⟨hlast, hflushed.mono (Nat.le_refl _) hle⟩
    | succ p => simp at hp
  · intro d hd
    exact h.leading d (List.mem_of_mem_eraseIdx hd)

/-- **A flush covers every record that was written before it.** -/
theorem flushedBefore_now (h : Batched first s) (i : Nat) :
    FlushedBefore first (s.history ++ [.fsynced, .returnedOk i]) (s.history.length + 1)
      s.wal.lastIndex := by
  refine ⟨s.history.length, Nat.lt_succ_self _, ?_, ?_, ?_⟩
  · simp
  · intro j r hj _
    by_cases hlt : j < s.history.length
    · exact hlt
    · rw [List.getElem?_append_right (Nat.le_of_not_lt hlt)] at hj
      have hmem := List.mem_of_getElem? hj
      simp at hmem
  · intro n hn hle
    obtain ⟨r, hr, hindex⟩ := h.present n hn hle
    obtain ⟨j, hj⟩ := List.getElem?_of_mem hr
    have hlt := (List.getElem?_eq_some_iff.mp hj).1
    refine ⟨j, r, hlt, ?_, hindex⟩
    rw [List.getElem?_append_left hlt]
    exact hj

/-- The leader has flushed and returns. -/
theorem flushed_leave (h : Batched first s) {k : Nat} {c : SyncCall} (hc : s.calls[k]? = some c)
    (hlead : c.Leads ∨ s.wal.flushInProgress = false) :
    Batched first (s.put
      { s.wal with syncedIndex := s.wal.lastIndex, flushInProgress := false } k none
      [.fsynced, .returnedOk c.atLeastIndex]) := by
  obtain ⟨_, hlast⟩ := h.asked c (List.mem_of_getElem? hc)
  have hnow := h.flushedBefore_now c.atLeastIndex
  refine h.leave (Nat.le_refl _) (by simp) (fun _ => ?_) ?_ ?_
  · exact hnow.mono (by simp) (Nat.le_refl _)
  · intro p i hp
    cases p with
    | zero => cases hp
    | succ p =>
      cases p with
      | zero =>
        cases hp
        exact ⟨hlast, hnow.mono (Nat.le_refl _) hlast⟩
      | succ p => simp at hp
  · intro d hd hdlead
    exact absurd hdlead (h.no_leader hc hlead d hd)

/-- **Every section keeps the invariant.** -/
theorem move (h : Batched first s) {a : GroupAction} (hm : GroupMove s a s') :
    Batched first s' := by
  cases hm with
  | idle => exact h
  | appended hopen hsize => exact h.appended _
  | appendFailed hopen hwritten hsize =>
    refine ⟨h.syncedLe, h.firstLe, ?_, h.wrote, h.present, h.asked, h.flushed, h.returned, h.apart,
      h.leading⟩
    have hfile := h.inFile
    simp only [List.length_append]
    omega
  | called hr =>
    rename_i r
    refine ⟨h.syncedLe, h.firstLe, h.inFile, h.wrote, h.present, ?_, h.flushed, h.returned, ?_, ?_⟩
    · intro c hc
      rcases List.mem_append.mp hc with hc | hc
      · exact h.asked c hc
      · cases List.mem_singleton.mp hc
        exact h.wrote r hr
    · refine List.pairwise_append.mpr ⟨h.apart, List.pairwise_singleton _ _, ?_⟩
      intro c _ d hd
      cases List.mem_singleton.mp hd
      rintro ⟨_, observed, hstage⟩
      cases hstage
    · intro c hc hlead
      rcases List.mem_append.mp hc with hc | hc
      · exact h.leading c hc hlead
      · cases List.mem_singleton.mp hc
        obtain ⟨observed, hstage⟩ := hlead
        cases hstage
  | refused hc => exact h.leave_failed fun d hd => h.leading d (List.mem_of_mem_eraseIdx hd)
  | covered hc hle => exact h.covered hc hle
  | waits hc =>
    refine h.put_quiet hc (fun d hd => by cases hd; rfl) id ?_
    rintro d hd ⟨observed, hstage⟩
    cases hd
    cases hstage
  | leads hc hfree =>
    exact h.put_quiet hc (fun d hd => by cases hd; rfl) (fun _ => rfl)
      fun d hd _ => ⟨rfl, Or.inr hfree⟩
  | ticks hc hlead =>
    refine h.put_quiet hc (fun d hd => by cases hd; rfl) id ?_
    intro d hd _
    exact ⟨h.leading _ (List.mem_of_getElem? hc) hlead, Or.inl hlead⟩
  | flushed hc hlead => exact h.flushed_leave hc hlead
  | flushFailed hc hlead =>
    exact h.leave_failed fun d hd hdlead => absurd hdlead (h.no_leader hc hlead d hd)

end Batched

namespace GroupCommit

variable {file : Bytes} {s s' : GroupCommit} {ok : GroupCommit → GroupAction → Prop}

theorem run_batched (hnum : Numbered (scanWal file).frames) (hr : Run file ok s) :
    Batched (lastIndexOf (scanWal file).frames) s := by
  induction hr with
  | init => exact Batched.opened hnum
  | step _ _ hs ih => exact ih.move (group_move hs)

/-- No section takes back what is flushed. -/
theorem syncedIndex_mono (hle : s.wal.syncedIndex ≤ s.wal.lastIndex) {a : GroupAction}
    (hs : s.step a = some s') : s.wal.syncedIndex ≤ s'.wal.syncedIndex := by
  cases group_move hs with
  | flushed hc hlead => exact hle
  | _ => exact Nat.le_refl _

end GroupCommit

/-- **Group commit never acknowledges an unflushed record**, in any interleaving of the sections of
any number of threads, with any `write` and any `fsync` failing: at most one thread leads a batch,
`synced_index_` is at most `last_index_` and never falls, no index leaves the range of 64 bits, and
whenever `Sync(i)` has returned `Ok`, an `fsync` has succeeded before that and after every record up
to `i` was written. -/
theorem group_commit_sound {file : Bytes} (hnum : Numbered (scanWal file).frames) {s : GroupCommit}
    (hr : GroupCommit.Run file anyStep s) :
    s.calls.Pairwise NotBothLead ∧ (∀ c ∈ s.calls, c.Leads → s.wal.flushInProgress = true) ∧
      s.wal.syncedIndex ≤ s.wal.lastIndex ∧ s.wal.lastIndex ≤ s.file.length ∧
      (∀ a s', s.step a = some s' → s.wal.syncedIndex ≤ s'.wal.syncedIndex) ∧
      ∀ p i, s.history[p]? = some (.returnedOk i) →
        FlushedBefore (lastIndexOf (scanWal file).frames) s.history p i := by
  have h := GroupCommit.run_batched hnum hr
  refine ⟨h.apart, h.leading, h.syncedLe, h.inFile, ?_, ?_⟩
  · intro a s' hs
    exact GroupCommit.syncedIndex_mono h.syncedLe hs
  · intro p i hp
    exact (h.returned p i hp).2

/-- Two records; the first leader's `fsync` fails, the waiter leads in its place and is
acknowledged. -/
theorem group_commit_sound_waiter : ∃ s : GroupCommit, s.history[3]? = some (.returnedOk 2) ∧
    FlushedBefore 0 s.history 3 2 := by
  obtain ⟨s, hr, hs⟩ : ∃ s : GroupCommit, GroupCommit.Run [] anyStep s ∧
      decide (s.history[3]? = some (WalEvent.returnedOk 2)) = true :=
    exists_run
      [.append ⟨0, 0, .kSet, [97], [49]⟩ .complete, .sync 1, .resume 0 false none,
        .append ⟨0, 0, .kSet, [98], [50]⟩ .complete, .sync 2, .resume 1 false none,
        .resume 0 false none, .resume 0 false (some "EIO"), .resume 0 true none]
      (by decide +kernel)
  have hreturned := of_decide_eq_true hs
  have hnum : Numbered (scanWal []).frames := Numbered.nil
  obtain ⟨_, _, _, _, _, hflushed⟩ := group_commit_sound hnum hr
  exact ⟨s, hreturned, hflushed 3 2 hreturned⟩

/-! ## Appends that fail -/

/-- `Append` wrote the record and returned its index, and a `Sync` that covers it returned `Ok`. -/
def GroupCommit.Acked (s : GroupCommit) (r : WalRecord) : Prop :=
  .wrote r ∈ s.history ∧ ∃ i, r.index ≤ i ∧ .returnedOk i ∈ s.history

/-- Records are appended only to a whole number of records, and only records that can be read
again. -/
def appendsToWhole : GroupCommit → GroupAction → Prop
  | s, .append record _ =>
    (scanWal s.file).tail = [] ∧ record.readable = true ∧ record.term < 2 ^ 64
  | _, _ => True

instance (s : GroupCommit) (a : GroupAction) : Decidable (appendsToWhole s a) := by
  unfold appendsToWhole
  split <;> infer_instance

/-- A scan of the file returns, numbered by position, all that was written. -/
structure Traceless (s : GroupCommit) (rs : List WalRecord) : Prop where
  scanned : ∃ t, scanWal s.file = ⟨rs, t, none⟩
  numbered : Numbered rs
  lastIndex : s.wal.lastIndex = rs.length
  wrote : ∀ r, .wrote r ∈ s.history → r ∈ rs

namespace Traceless

variable {s s' : GroupCommit} {rs : List WalRecord}

theorem opened {file : Bytes} (herror : (scanWal file).error = none)
    (hnum : Numbered (scanWal file).frames) :
    Traceless (GroupCommit.opened file) (scanWal file).frames := by
  refine ⟨⟨(scanWal file).tail, ?_⟩, hnum, ?_, fun r hr => by cases hr⟩
  · rw [← herror]
    rfl
  · exact (Batched.openOrCreate_fields file).1.trans hnum.getLast

theorem encodable (h : Traceless s rs) : ∀ r ∈ rs, r.Encodable := by
  obtain ⟨t, hscan⟩ := h.scanned
  have hsound := (scanWal_sound s.file).1
  rwa [hscan] at hsound

/-- Where the scan leaves nothing over, the file is all records. -/
theorem file_eq (h : Traceless s rs) (htail : (scanWal s.file).tail = []) :
    s.file = encodeAll encodeWalRecord rs := by
  obtain ⟨t, hscan⟩ := h.scanned
  obtain ⟨_, hfile⟩ := scanWal_sound s.file
  rw [htail, List.append_nil, hscan] at hfile
  exact hfile

/-- The next record can be read again: its index fits, because the file holds a byte for each
record before it. -/
theorem next_encodable (h : Traceless s rs) (htail : (scanWal s.file).tail = [])
    {record : WalRecord} (hreadable : record.readable = true) (hterm : record.term < 2 ^ 64)
    {bytes : Bytes} (hsize : (s.file ++ bytes).length ≤ maxFileSize) :
    WalRecord.Encodable { record with index := s.wal.lastIndex + 1 } := by
  refine ⟨hreadable, hterm, ?_⟩
  have hlen : 1 * rs.length ≤ (encodeAll encodeWalRecord rs).length :=
    le_length_encodeAll fun r _ => List.length_pos_iff.mpr (walReads.nonempty r)
  rw [List.length_append, h.file_eq htail, maxFileSize] at hsize
  simp only [h.lastIndex]
  omega

/-- A section of `Sync` leaves the file and the records alone. -/
theorem put (h : Traceless s rs) {wal : WalWriter} (hlast : wal.lastIndex = s.wal.lastIndex)
    {events : List WalEvent} (hnone : ∀ r, .wrote r ∉ events) (k : Nat) (next : Option SyncCall) :
    Traceless (s.put wal k next events) rs := by
  refine ⟨h.scanned, h.numbered, hlast.trans h.lastIndex, ?_⟩
  intro r hr
  rcases List.mem_append.mp hr with hr | hr
  · exact h.wrote r hr
  · exact absurd hr (hnone r)

/-- **A section on whole records keeps the file readable.** -/
theorem move (h : Traceless s rs) {a : GroupAction} (hok : appendsToWhole s a)
    (hm : GroupMove s a s') : ∃ rs', Traceless s' rs' := by
  have hnil : Torn WalRecord.Encodable encodeWalRecord [] := Or.inl rfl
  cases hm with
  | appended hopen hsize =>
    rename_i record
    obtain ⟨htail, hreadable, hterm⟩ := hok
    have hnext := h.next_encodable htail hreadable hterm hsize
    have hall : ∀ r ∈ rs ++ [{ record with index := s.wal.lastIndex + 1 }], r.Encodable := by
      intro r hr
      rcases List.mem_append.mp hr with hr | hr
      · exact h.encodable r hr
      · cases List.mem_singleton.mp hr
        exact hnext
    refine ⟨rs ++ [{ record with index := s.wal.lastIndex + 1 }], ⟨[], ?_⟩, ?_, ?_, ?_⟩
    · have hscan := scanWal_frames hall hnil
      rw [List.append_nil, encodeAll_concat, ← h.file_eq htail] at hscan
      exact hscan
    · exact h.numbered.concat (by rw [h.lastIndex])
    · simp [h.lastIndex]
    · intro r hr
      rcases List.mem_append.mp hr with hr | hr
      · exact List.mem_append_left _ (h.wrote r hr)
      · cases List.mem_singleton.mp hr
        exact List.mem_append_right _ List.mem_cons_self
  | appendFailed hopen hwritten hsize =>
    rename_i record written errno
    obtain ⟨htail, hreadable, hterm⟩ := hok
    have hnext := h.next_encodable htail hreadable hterm hsize
    -- part of the record stays behind, as after a crash
    refine ⟨rs, ⟨(encodeWalRecord { record with index := s.wal.lastIndex + 1 }).take written, ?_⟩,
      h.numbered, h.lastIndex, h.wrote⟩
    simp only [h.file_eq htail]
    refine scanWal_frames h.encodable (Or.inr ⟨_, hnext, List.take_prefix _ _, ?_⟩)
    intro heq
    have hlen := congrArg List.length heq
    rw [List.length_take] at hlen
    omega
  | idle => exact ⟨rs, h⟩
  | called hr => exact ⟨rs, h.scanned, h.numbered, h.lastIndex, h.wrote⟩
  | _ =>
    refine ⟨rs, h.put ?_ ?_ _ _⟩
    · rfl
    · simp

end Traceless

theorem GroupCommit.run_traceless {file : Bytes} (herror : (scanWal file).error = none)
    (hnum : Numbered (scanWal file).frames) {s : GroupCommit}
    (hr : GroupCommit.Run file appendsToWhole s) : ∃ rs, Traceless s rs := by
  induction hr with
  | init => exact ⟨_, Traceless.opened herror hnum⟩
  | step _ hok hs ih =>
    obtain ⟨rs, h⟩ := ih
    exact h.move hok (group_move hs)

/-- **A failed append leaves no trace**, in every run in which no record is appended behind part of
another one: a scan of the file returns every record that `Append` and `Sync` have acknowledged,
without error and in the order of the indices. -/
theorem acked_records_scanned {file : Bytes} (herror : (scanWal file).error = none)
    (hnum : Numbered (scanWal file).frames) {s : GroupCommit}
    (hr : GroupCommit.Run file appendsToWhole s) :
    (scanWal s.file).error = none ∧ Numbered (scanWal s.file).frames ∧
      ∀ r, s.Acked r → r ∈ (scanWal s.file).frames := by
  obtain ⟨rs, h⟩ := GroupCommit.run_traceless herror hnum hr
  obtain ⟨t, hscan⟩ := h.scanned
  rw [hscan]
  exact ⟨rfl, h.numbered, fun r hacked => h.wrote r hacked.1⟩

/-- Two appends fail, one before it has written anything and one in the middle of its record, which
is the last. -/
theorem acked_records_scanned_failures :
    ∃ s : GroupCommit, GroupCommit.Run [] appendsToWhole s ∧
      s.Acked ⟨0, 1, .kSet, [97], [49]⟩ ∧
      ⟨0, 1, .kSet, [97], [49]⟩ ∈ (scanWal s.file).frames := by
  obtain ⟨s, hr, hs⟩ : ∃ s : GroupCommit, GroupCommit.Run [] appendsToWhole s ∧
      decide (s.history = [WalEvent.wrote ⟨0, 1, .kSet, [97], [49]⟩, .fsynced, .returnedOk 1]) =
        true :=
    exists_run
      [.append ⟨0, 0, .kSet, [97], [49]⟩ (.failed 0 "ENOSPC"),
        .append ⟨0, 0, .kSet, [97], [49]⟩ .complete, .sync 1, .resume 0 true none,
        .append ⟨0, 0, .kSet, [98], [50]⟩ (.failed 5 "ENOSPC")]
      (by decide +kernel)
  have hhistory := of_decide_eq_true hs
  have hacked : s.Acked ⟨0, 1, .kSet, [97], [49]⟩ := by
    refine ⟨?_, 1, Nat.le_refl 1, ?_⟩
    · rw [hhistory]
      exact List.mem_cons_self
    · rw [hhistory]
      simp
  have hnum : Numbered (scanWal []).frames := Numbered.nil
  exact ⟨s, hr, hacked, (acked_records_scanned rfl hnum hr).2.2 _ hacked⟩

/-- **In general it does**: `write` fails in the middle of a record, the next record is appended
behind the part that is there, flushed and acknowledged, and no scan gets to it. -/
theorem partial_append_hides_acked :
    ¬ ∀ (s : GroupCommit), GroupCommit.Run [] anyStep s →
      (scanWal s.file).error = none ∧ ∀ r, s.Acked r → r ∈ (scanWal s.file).frames := by
  intro hall
  obtain ⟨s, hr, hs⟩ : ∃ s : GroupCommit, GroupCommit.Run [] anyStep s ∧
      ((scanWal s.file).error.isSome = true) :=
    exists_run
      [.append ⟨0, 0, .kSet, [97], [49]⟩ (.failed 5 "ENOSPC"),
        .append ⟨0, 0, .kSet, [98], [50]⟩ .complete, .sync 1, .resume 0 true none]
      (by decide +kernel)
  rw [(hall s hr).1] at hs
  cases hs

end NeuralKV
