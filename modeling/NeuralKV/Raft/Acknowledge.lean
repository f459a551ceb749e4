import NeuralKV.Raft.DiskLog
import NeuralKV.Raft.FollowerAppend

/-!
# What an acknowledged request has stored

`HandleAppendEntries` drops the statuses of `Log::TruncateFrom` and `Log::Append` and answers
`success` whatever they were.

* `DiskLog.appendLoop`, `RaftNode.handleAppendEntriesOn` — the handler on a disk that can fail.
* `handleAppendEntriesOn_faultless` — where no system call fails it is the handler of
  `NeuralKV.Raft.Node`.
* `stored_in_memory_iff` — the entries are in memory exactly if every round's calls succeed, and the
  entries that were skipped are the ones that the log held.
* `acknowledged_stored_iff` — **an acknowledged request is stored, in memory and in the WAL, exactly
  if** this holds, the WAL can read the new entries back and a scan of the file gets to them.
* `DiskFollower.run_inSync` — memory and WAL stay the same log in every run in which it does.
-/

set_option autoImplicit false

namespace NeuralKV

open Framing

/-! ## The handler -/

/-- Outcome of the system calls of one round of the loop. -/
structure EntryCalls where
  truncate : RewriteCalls := {}
  append : AppendCalls := {}

namespace DiskLog

/-- What the node reads of its log. -/
def view (l : DiskLog) : Log where
  entries := l.entries
  wal :=
    { records := l.entries, lastIndex := l.wal.lastIndex, syncedIndex := l.wal.syncedIndex }

/-- Log and file. -/
def toFile (l : DiskLog) : LogFile := ⟨l.view, l.file⟩

/-- The loop of `HandleAppendEntries`; `calls i` are the calls of the round for index `i`, and their
statuses are dropped. -/
def appendLoop (calls : Nat → EntryCalls) (l : DiskLog) : Nat → List LogEntry → DiskLog
  | _, [] => l
  | index, entry :: rest =>
    match l.get (index + 1) with
    | some existing =>
      if existing.term = entry.term then appendLoop calls l (index + 1) rest
      else
        appendLoop calls
          ((l.truncateFrom (index + 1) (calls (index + 1)).truncate).1.append entry
            (calls (index + 1)).append).1
          (index + 1) rest
    | none => appendLoop calls (l.append entry (calls (index + 1)).append).1 (index + 1) rest

end DiskLog

/-- `RaftNode::HandleAppendEntries` of a node whose log is `disk`. -/
def RaftNode.handleAppendEntriesOn (node : RaftNode) (disk : DiskLog) (req : AppendEntriesRequest)
    (calls : Nat → EntryCalls) : RaftNode × DiskLog × AppendEntriesResponse :=
  let node := { node with log := disk.view }
  if req.term < node.currentTerm then (node, disk, ⟨node.currentTerm, false⟩)
  else
    let node := node.acceptLeader req
    if node.prevMismatch req then (node, disk, ⟨node.currentTerm, false⟩)
    else
      let disk := disk.appendLoop calls req.prevLogIndex req.entries
      (({ node with log := disk.view } : RaftNode).followCommit req.leaderCommit, disk,
        ⟨node.currentTerm, true⟩)

/-! ## No call fails -/

theorem RewriteCalls.succeed_default (records : List WalRecord) : Succeed {} records :=
  ⟨rfl, rfl, fun _ _ h => (by cases h), rfl⟩

theorem AppendCalls.Succeed.eq {calls : AppendCalls} (h : calls.Succeed) : calls = {} := by
  cases calls
  cases h.write
  cases h.fsync
  rfl

namespace DiskLog

variable {l : DiskLog} {calls : Nat → EntryCalls}

theorem Usable.append (h : l.Usable) (entry : LogEntry) (calls : AppendCalls) :
    (l.append entry calls).1.Usable := by
  rcases append_cases h entry calls with ⟨_, _, _, heq⟩ | ⟨_, _, _, heq⟩ | ⟨_, _, heq⟩
  · rw [heq]
    exact ⟨h.open_ok, h.synced_le⟩
  · rw [heq]
    exact ⟨h.open_ok, Nat.le_succ_of_le h.synced_le⟩
  · rw [heq]
    exact ⟨h.open_ok, Nat.le_refl _⟩

theorem Usable.truncateFrom (h : l.Usable) (k : Nat) (calls : RewriteCalls) :
    (l.truncateFrom (k + 1) calls).1.Usable ∧
      (l.truncateFrom (k + 1) calls).1.entries = l.kept (k + 1) := by
  rcases truncateFrom_cases h (Nat.succ_ne_zero k) calls with ⟨_, heq⟩ | ⟨_, _, _, _, heq⟩
  · rw [heq]
    exact ⟨⟨h.open_ok, Nat.le_refl _⟩, rfl⟩
  · rw [heq]
    exact ⟨⟨h.open_ok, h.synced_le⟩, rfl⟩

theorem append_toFile (h : l.Usable) (entry : LogEntry) :
    (l.append entry {}).1.toFile = l.toFile.append entry := by
  rcases append_cases h entry {} with ⟨_, _, hfail, _⟩ | ⟨_, _, hfail, _⟩ | ⟨_, _, heq⟩
  · cases hfail
  · cases hfail
  · rw [heq]
    rfl

theorem truncateFrom_toFile (h : l.Usable) (k : Nat) :
    (l.truncateFrom (k + 1) {}).1.toFile = l.toFile.truncateFrom (k + 1) := by
  rcases truncateFrom_cases h (Nat.succ_ne_zero k) {} with ⟨_, heq⟩ | ⟨hfail, _⟩
  · rw [heq]
    simp only [toFile, view, LogFile.truncateFrom, Log.truncateFrom, Nat.succ_ne_zero, if_false]
    rfl
  · exact absurd (RewriteCalls.succeed_default _) hfail

/-- **Without a failure the loop is the loop on log and file.** -/
theorem appendLoop_faultless : ∀ (entries : List LogEntry) {l : DiskLog} (index : Nat), l.Usable →
    (l.appendLoop (fun _ => {}) index entries).toFile = l.toFile.appendLoop index entries
  | [], _, _, _ => rfl
  | entry :: rest, l, index, h => by
    unfold appendLoop LogFile.appendLoop
    rw [show l.toFile.log.get (index + 1) = l.get (index + 1) from rfl]
    cases l.get (index + 1) with
    | none =>
      dsimp only
      rw [appendLoop_faultless rest (index + 1) (h.append entry {}), append_toFile h]
    | some existing =>
      dsimp only
      split
      · exact appendLoop_faultless rest (index + 1) h
      · have hcut := (h.truncateFrom index {}).1
        rw [appendLoop_faultless rest (index + 1) (hcut.append entry {}), append_toFile hcut,
          truncateFrom_toFile h]

/-- A truncation that succeeds leaves what one without any failure leaves. -/
theorem truncateFrom_succeeds (h : l.Usable) {k : Nat} {calls : RewriteCalls}
    (hs : calls.Succeed (l.kept (k + 1))) :
    (l.truncateFrom (k + 1) calls).1 = (l.truncateFrom (k + 1) {}).1 := by
  rcases truncateFrom_cases h (Nat.succ_ne_zero k) calls with ⟨_, heq⟩ | ⟨hfail, _⟩
  · rcases truncateFrom_cases h (Nat.succ_ne_zero k) {} with ⟨_, heq'⟩ | ⟨hfail, _⟩
    · rw [heq, heq']
    · exact absurd (RewriteCalls.succeed_default _) hfail
  · exact absurd hs hfail

/-! ## Reading by position -/

theorem get_eq_some {i : Nat} {e : LogEntry} :
    l.get (i + 1) = some e ↔ l.entries[i]? = some e ∧ e.index = i + 1 := by
  unfold get Log.get
  rw [if_neg (Nat.succ_ne_zero i), Nat.add_sub_cancel]
  dsimp only
  cases l.entries[i]? with
  | none => simp
  | some x =>
    dsimp only
    split
    · rename_i hx
      constructor
      · intro h
        cases h
        exact ⟨rfl, hx⟩
      · exact fun h => h.1
    · rename_i hx
      constructor
      · intro h
        cases h
      · rintro ⟨h, he⟩
        cases h
        exact absurd he hx

theorem get_behind {p : Nat} (hp : l.entries.length ≤ p) : l.get (p + 1) = none := by
  cases h : l.get (p + 1) with
  | none => rfl
  | some e =>
    have := (List.getElem?_eq_some_iff.mp (get_eq_some.mp h).1).1
    omega

theorem Tracked.contiguous (h : l.Tracked) : l.view.Contiguous := ⟨h.numbered, h.counted, rfl⟩

/-! ## The rounds of the loop -/

/-- The entries that the log already holds are skipped. -/
theorem appendLoop_firstNew : ∀ (entries : List LogEntry) (l : DiskLog) (index : Nat),
    l.appendLoop calls index entries =
      l.appendLoop calls (l.view.firstNew index entries).1 (l.view.newEntries index entries)
  | [], _, _ => rfl
  | entry :: rest, l, index => by
    unfold Log.newEntries
    rcases Log.firstNew_cons l.view index entry rest with ⟨existing, hget, hterm, heq⟩ | ⟨_, heq⟩
    · have hget' : l.get (index + 1) = some existing := hget
      rw [heq, show (l.view.firstNew (index + 1) rest).2 = l.view.newEntries (index + 1) rest
        from rfl, ← appendLoop_firstNew rest l (index + 1)]
      simp only [appendLoop, hget', hterm, if_true]
    · rw [heq]

theorem append_length_le (h : l.Usable) (entry : LogEntry) (calls : AppendCalls) :
    l.entries <+: (l.append entry calls).1.entries ∧
      (l.append entry calls).1.entries.length ≤ l.entries.length + 1 ∧
      ((l.append entry calls).1.entries.length = l.entries.length + 1 → calls.Succeed) := by
  rcases append_cases h entry calls with ⟨_, _, _, heq⟩ | ⟨_, _, _, heq⟩ | ⟨hwrite, hsync, heq⟩
  · rw [heq]
    exact ⟨List.prefix_rfl, by simp, fun hlen => by simp at hlen⟩
  · rw [heq]
    exact ⟨List.prefix_rfl, by simp, fun hlen => by simp at hlen⟩
  · rw [heq]
    exact ⟨List.prefix_append _ _, by simp, fun _ => ⟨hwrite, hsync⟩⟩

/-- **Behind the end of the log** every round appends, so each round that fails leaves the log one
entry short. -/
theorem appendLoop_behind (calls : Nat → EntryCalls) :
    ∀ (es : List LogEntry) {l : DiskLog} {p : Nat}, l.Usable → l.entries.length ≤ p →
      l.entries <+: (l.appendLoop calls p es).entries ∧
      (l.appendLoop calls p es).entries.length ≤ l.entries.length + es.length ∧
      ((l.appendLoop calls p es).entries.length = l.entries.length + es.length →
        ∀ i, i < es.length → (calls (p + i + 1)).append.Succeed)
  | [], l, _, _, _ => ⟨List.prefix_rfl, Nat.le_refl _, fun _ i hi => by simp at hi⟩
  | e :: es, l, p, h, hp => by
    obtain ⟨hpre, hlen, hsucc⟩ := append_length_le h e (calls (p + 1)).append
    obtain ⟨hpre', hlen', hsucc'⟩ := appendLoop_behind calls es (p := p + 1)
      (h.append e (calls (p + 1)).append) (by omega)
    unfold appendLoop
    rw [get_behind hp]
    dsimp only
    rw [List.length_cons]
    refine ⟨hpre.trans hpre', by omega, fun hall i hi => ?_⟩
    cases i with
    | zero => exact hsucc (by omega)
    | succ i =>
      have hi' := hsucc' (by omega) i (by omega)
      rwa [show p + 1 + i + 1 = p + (i + 1) + 1 by omega] at hi'

/-- Behind the end of the log the loop sees only the calls of the appends. -/
theorem appendLoop_congr {calls' : Nat → EntryCalls} :
    ∀ {es : List LogEntry} {l : DiskLog} {p : Nat}, l.Usable → l.entries.length ≤ p →
    (∀ i, i < es.length → (calls (p + i + 1)).append = (calls' (p + i + 1)).append) →
      l.appendLoop calls p es = l.appendLoop calls' p es
  | [], _, _, _, _, _ => rfl
  | e :: es, l, p, h, hp, hcalls => by
    have h0 := hcalls 0 (by simp)
    obtain ⟨_, hlen, _⟩ := append_length_le h e (calls' (p + 1)).append
    unfold appendLoop
    rw [get_behind hp]
    dsimp only
    rw [show (calls (p + 1)).append = (calls' (p + 1)).append from h0]
    refine appendLoop_congr (h.append e _) (by omega) fun i hi => ?_
    have hi' := hcalls (i + 1) (by simpa using hi)
    rwa [show p + (i + 1) + 1 = p + 1 + i + 1 by omega] at hi'

/-- An entry of another term: the loop goes on with the log that the truncation leaves. -/
theorem appendLoop_cut {p : Nat} {entry existing : LogEntry} (h : l.Tracked)
    (rest : List LogEntry) (hget : l.get (p + 1) = some existing)
    (hterm : existing.term ≠ entry.term) :
    l.appendLoop calls p (entry :: rest) =
      (l.truncateFrom (p + 1) (calls (p + 1)).truncate).1.appendLoop calls p (entry :: rest) := by
  have hkept := (h.usable.truncateFrom p (calls (p + 1)).truncate).2
  have hlen : (l.truncateFrom (p + 1) (calls (p + 1)).truncate).1.entries.length ≤ p := by
    rw [hkept, kept_eq_take h.numbered, List.length_take]
    omega
  rw [appendLoop, appendLoop, hget, get_behind hlen]
  simp only [hterm, if_false]

/-- **After a truncation that failed** the counter is ahead of the log, so the next entry gets a
wrong index and is not found. -/
theorem get_after_failed_truncation {p : Nat} (h : l.Tracked) (hp : p < l.entries.length)
    (hfail : ¬ (calls (p + 1)).truncate.Succeed (l.entries.take p))
    (happend : (calls (p + 1)).append.Succeed) (entry : LogEntry) (rest : List LogEntry) :
    ((l.truncateFrom (p + 1) (calls (p + 1)).truncate).1.appendLoop calls p (entry :: rest)).get
      (p + 1) = none := by
  obtain ⟨hstart, hkept⟩ := h.usable.truncateFrom p (calls (p + 1)).truncate
  have hlast : (l.truncateFrom (p + 1) (calls (p + 1)).truncate).1.wal.lastIndex =
      l.entries.length := by
    rcases truncateFrom_cases h.usable (Nat.succ_ne_zero p) (calls (p + 1)).truncate with
      ⟨hs, _⟩ | ⟨_, _, _, _, heq⟩
    · rw [kept_eq_take h.numbered] at hs
      exact absurd hs hfail
    · rw [heq]
      exact h.counted
  rw [kept_eq_take h.numbered] at hkept
  generalize (l.truncateFrom (p + 1) (calls (p + 1)).truncate).1 = start at *
  have hlen : start.entries.length = p := by
    rw [hkept, List.length_take]
    omega
  have happended : (start.append entry (calls (p + 1)).append).1.entries =
      start.entries ++ [{ entry with index := l.entries.length + 1 }] := by
    rw [happend.eq]
    rcases append_cases hstart entry {} with ⟨_, _, hf, _⟩ | ⟨_, _, hf, _⟩ | ⟨_, _, heq⟩
    · cases hf
    · cases hf
    · rw [heq, hlast]
  obtain ⟨hpre, _, _⟩ := appendLoop_behind calls rest (p := p + 1)
    (hstart.append entry (calls (p + 1)).append) (by rw [happended]; simp [hlen])
  have hfound : (start.append entry (calls (p + 1)).append).1.entries[p]? =
      some { entry with index := l.entries.length + 1 } := by
    rw [happended, ← hlen]
    simp
  rw [appendLoop, get_behind (Nat.le_of_eq hlen)]
  dsimp only
  cases hget : ((start.append entry (calls (p + 1)).append).1.appendLoop calls (p + 1) rest).get
      (p + 1) with
  | none => rfl
  | some e =>
    obtain ⟨he, hindex⟩ := get_eq_some.mp hget
    rw [Consensus.getElem?_of_isPrefix hpre hfound] at he
    cases he
    simp at hindex
    omega

/-! ## Requests that are stored in memory -/

/-- The calls of every round that changes the log succeed. -/
structure RoundsSucceed (l : DiskLog) (calls : Nat → EntryCalls) (prev : Nat)
    (entries : List LogEntry) : Prop where
  truncate : l.view.Conflicts prev entries →
    (calls ((l.view.firstNew prev entries).1 + 1)).truncate.Succeed
      (l.entries.take (l.view.firstNew prev entries).1)
  append : ∀ i, i < (l.view.newEntries prev entries).length →
    (calls ((l.view.firstNew prev entries).1 + i + 1)).append.Succeed

/-- The entries before the first new one are in the log as they are in the request. -/
def HoldsSkipped (l : DiskLog) (prev : Nat) (entries : List LogEntry) : Prop :=
  ∀ j e, entries[j]? = some e → prev + j < (l.view.firstNew prev entries).1 →
    l.get (prev + j + 1) = some { e with index := prev + j + 1 }

/-- The log has the entries of the request in memory. -/
def InMemory (l : DiskLog) (prev : Nat) (entries : List LogEntry) : Prop :=
  ∀ j e, entries[j]? = some e → l.get (prev + j + 1) = some { e with index := prev + j + 1 }

section Memory

variable {prev : Nat} {entries : List LogEntry}

/-- The last entry of the request is in the log. -/
theorem InMemory.length_le (h : l.InMemory prev entries) (hne : entries ≠ []) :
    prev + entries.length ≤ l.entries.length := by
  have hpos := List.length_pos_of_ne_nil hne
  have hlt : entries.length - 1 < entries.length := by omega
  have hlast := (get_eq_some.mp (h _ _ (List.getElem?_eq_getElem hlt))).1
  have := (List.getElem?_eq_some_iff.mp hlast).1
  omega

theorem appendLoop_held (hnew : l.view.newEntries prev entries = []) :
    l.appendLoop calls prev entries = l := by
  rw [appendLoop_firstNew, hnew]
  rfl

/-- Where the appends start: the log after the truncation, if there is one. -/
theorem appendLoop_start (calls : Nat → EntryCalls) (h : l.Tracked)
    (hprev : prev ≤ l.entries.length) {entry : LogEntry} {rest : List LogEntry}
    (hnew : l.view.newEntries prev entries = entry :: rest) :
    ∃ start : DiskLog, start.Usable ∧
      start.entries = l.entries.take (l.view.firstNew prev entries).1 ∧
      l.appendLoop calls prev entries =
        start.appendLoop calls (l.view.firstNew prev entries).1 (entry :: rest) ∧
      ((l.view.Conflicts prev entries ∧
          start = (l.truncateFrom ((l.view.firstNew prev entries).1 + 1)
            (calls ((l.view.firstNew prev entries).1 + 1)).truncate).1) ∨
        (¬ l.view.Conflicts prev entries ∧ start = l)) := by
  have hle := Log.firstNew_le h.contiguous entries prev hprev
  have hsplit : l.view.firstNew prev entries =
      ((l.view.firstNew prev entries).1, entry :: rest) := by rw [← hnew]; rfl
  rw [appendLoop_firstNew, hnew]
  generalize (l.view.firstNew prev entries).1 = p at *
  by_cases hlt : p < l.entries.length
  · obtain ⟨existing, hexisting⟩ : ∃ e, l.entries[p]? = some e := ⟨_, List.getElem?_eq_getElem hlt⟩
    have hget : l.get (p + 1) = some existing :=
      get_eq_some.mpr ⟨hexisting, h.numbered p existing hexisting⟩
    obtain ⟨husable, hkept⟩ := h.usable.truncateFrom p (calls (p + 1)).truncate
    rw [kept_eq_take h.numbered] at hkept
    refine ⟨_, husable, hkept, appendLoop_cut h rest hget (Log.firstNew_ne hsplit hget),
      Or.inl ⟨⟨by rw [hnew]; simp, ?_⟩, rfl⟩⟩
    rw [hsplit]
    exact hlt
  · refine ⟨l, h.usable, (List.take_of_length_le (by omega)).symm, rfl, Or.inr ⟨?_, rfl⟩⟩
    rintro ⟨_, hconf⟩
    rw [hsplit] at hconf
    exact hlt hconf

/-- Calls that succeed make no difference. -/
theorem RoundsSucceed.appendLoop_eq (hr : l.RoundsSucceed calls prev entries) (h : l.Tracked)
    (hprev : prev ≤ l.entries.length) :
    l.appendLoop calls prev entries = l.appendLoop (fun _ => {}) prev entries := by
  cases hnew : l.view.newEntries prev entries with
  | nil => rw [appendLoop_held hnew, appendLoop_held hnew]
  | cons entry rest =>
    obtain ⟨start, husable, hstart, heq, hfrom⟩ := appendLoop_start calls h hprev hnew
    obtain ⟨start', _, _, heq', hfrom'⟩ := appendLoop_start (fun _ => {}) h hprev hnew
    have hsame : start = start' := by
      rcases hfrom with ⟨hconf, rfl⟩ | ⟨hconf, rfl⟩
      · rcases hfrom' with ⟨_, rfl⟩ | ⟨hconf', _⟩
        · exact truncateFrom_succeeds h.usable
            (by rw [kept_eq_take h.numbered]; exact hr.truncate hconf)
        · exact absurd hconf hconf'
      · rcases hfrom' with ⟨hconf', _⟩ | ⟨_, rfl⟩
        · exact absurd hconf' hconf
        · rfl
    rw [heq, heq', ← hsame]
    refine appendLoop_congr husable ?_ fun i hi => (hr.append i (by rw [hnew]; exact hi)).eq
    rw [hstart, List.length_take]
    omega

theorem RoundsSucceed.toFile (hr : l.RoundsSucceed calls prev entries) (h : l.Tracked)
    (hprev : prev ≤ l.entries.length) :
    (l.appendLoop calls prev entries).toFile = l.toFile.appendLoop prev entries := by
  rw [hr.appendLoop_eq h hprev]
  exact appendLoop_faultless entries prev h.usable

/-- **What the loop leaves when its calls succeed.** -/
theorem RoundsSucceed.wrote (hr : l.RoundsSucceed calls prev entries) (h : l.Tracked)
    (hprev : prev ≤ l.entries.length) :
    (l.appendLoop calls prev entries).view.Contiguous ∧
      ((l.view.Conflicts prev entries ∧
          (l.appendLoop calls prev entries).entries =
            l.entries.take (l.view.firstNew prev entries).1 ++
              renumber (l.view.firstNew prev entries).1 (l.view.newEntries prev entries) ∧
          (l.appendLoop calls prev entries).file =
            encodeAll encodeWalRecord (l.appendLoop calls prev entries).entries) ∨
        (¬ l.view.Conflicts prev entries ∧
          (l.appendLoop calls prev entries).entries =
            l.entries ++
              renumber (l.view.firstNew prev entries).1 (l.view.newEntries prev entries) ∧
          (l.appendLoop calls prev entries).file =
            l.file ++ encodeAll encodeWalRecord
              (renumber (l.view.firstNew prev entries).1 (l.view.newEntries prev entries)))) := by
  have hwrote := LogFile.appendLoop_wrote (l := l.toFile) entries h.contiguous hprev
  rw [← hr.toFile h hprev] at hwrote
  exact hwrote

theorem RoundsSucceed.inMemory (hr : l.RoundsSucceed calls prev entries) (h : l.Tracked)
    (hprev : prev ≤ l.entries.length) (hheld : l.HoldsSkipped prev entries) :
    (l.appendLoop calls prev entries).InMemory prev entries := by
  obtain ⟨_, hwrote⟩ := hr.wrote h hprev
  have hle : (l.view.firstNew prev entries).1 ≤ l.entries.length :=
    Log.firstNew_le h.contiguous entries prev hprev
  obtain ⟨held, hsplit, hp⟩ := Log.firstNew_split l.view entries prev
  intro j e he
  refine get_eq_some.mpr ⟨?_, rfl⟩
  by_cases hj : prev + j < (l.view.firstNew prev entries).1
  · have hbefore := (get_eq_some.mp (hheld j e he hj)).1
    rcases hwrote with ⟨_, hentries, _⟩ | ⟨_, hentries, _⟩
    · rw [hentries, List.getElem?_append_left (by rw [List.length_take]; omega),
        List.getElem?_take_of_lt hj]
      exact hbefore
    · rw [hentries, List.getElem?_append_left (by omega)]
      exact hbefore
  · -- a new entry: they start where the kept part of the log ends
    have hnew : (l.view.newEntries prev entries)[j - held.length]? = some e := by
      rw [hsplit, List.getElem?_append_right (by omega)] at he
      exact he
    have hne : l.view.newEntries prev entries ≠ [] := by
      intro hnil
      rw [hnil] at hnew
      cases hnew
    have hentries : (l.appendLoop calls prev entries).entries =
        l.entries.take (l.view.firstNew prev entries).1 ++
          renumber (l.view.firstNew prev entries).1 (l.view.newEntries prev entries) := by
      rcases hwrote with ⟨_, hentries, _⟩ | ⟨hconf, hentries, _⟩
      · exact hentries
      · have hend : l.entries.length ≤ (l.view.firstNew prev entries).1 :=
          Nat.le_of_not_lt fun hlt => hconf ⟨hne, hlt⟩
        rw [hentries, List.take_of_length_le hend]
    have hlen : (l.entries.take (l.view.firstNew prev entries).1).length =
        (l.view.firstNew prev entries).1 := by
      rw [List.length_take]
      omega
    rw [hentries, List.getElem?_append_right (by omega), hlen, getElem?_renumber,
      show prev + j - (l.view.firstNew prev entries).1 = j - held.length by omega, hnew,
      show (l.view.firstNew prev entries).1 + (j - held.length) + 1 = prev + j + 1 by omega]
    rfl

/-- **A request that is in memory afterwards was handled without a failure.** -/
theorem RoundsSucceed.of_inMemory (h : l.Tracked) (hprev : prev ≤ l.entries.length)
    (hmem : (l.appendLoop calls prev entries).InMemory prev entries) :
    l.HoldsSkipped prev entries ∧ l.RoundsSucceed calls prev entries := by
  obtain ⟨held, hsplit, hp⟩ := Log.firstNew_split l.view entries prev
  have hle : (l.view.firstNew prev entries).1 ≤ l.entries.length :=
    Log.firstNew_le h.contiguous entries prev hprev
  cases hnew : l.view.newEntries prev entries with
  | nil =>
    rw [appendLoop_held hnew] at hmem
    refine ⟨fun j e he _ => hmem j e he, ⟨fun hconf => absurd hnew hconf.1, fun i hi => ?_⟩⟩
    rw [hnew] at hi
    simp at hi
  | cons entry rest =>
    obtain ⟨start, husable, hstart, heq, hfrom⟩ := appendLoop_start calls h hprev hnew
    rw [heq] at hmem
    rw [hnew] at hsplit
    have hlen : start.entries.length = (l.view.firstNew prev entries).1 := by
      rw [hstart, List.length_take]
      omega
    obtain ⟨hpre, hlast, hall⟩ :=
      appendLoop_behind calls (entry :: rest) husable (Nat.le_of_eq hlen)
    -- the last entry is there, so no round left the log short
    have happend : ∀ i, i < (entry :: rest).length →
        (calls ((l.view.firstNew prev entries).1 + i + 1)).append.Succeed := by
      have hreach := hmem.length_le (by rw [hsplit]; simp)
      have hcount : entries.length = held.length + (entry :: rest).length := by
        rw [hsplit, List.length_append]
      exact hall (by omega)
    refine ⟨fun j e he hj => ?_, ⟨fun hconf => ?_, ?_⟩⟩
    · -- what lies before the first new entry has not been touched
      have hfound := (get_eq_some.mp (hmem j e he)).1
      have hbefore : start.entries[prev + j]? = some { e with index := prev + j + 1 } := by
        obtain ⟨t, ht⟩ := hpre
        rw [← ht, List.getElem?_append_left (by omega)] at hfound
        exact hfound
      rw [hstart, List.getElem?_take_of_lt hj] at hbefore
      exact get_eq_some.mpr ⟨hbefore, rfl⟩
    · by_contra hfail
      have hfirst : entries[held.length]? = some entry := by
        rw [hsplit]
        simp
      have hfound := hmem held.length entry hfirst
      rcases hfrom with ⟨_, rfl⟩ | ⟨hconf', _⟩
      · rw [← hp, get_after_failed_truncation h hconf.2 hfail (happend 0 (by simp))] at hfound
        cases hfound
      · exact hconf' hconf
    · rw [hnew]
      exact happend

/-- **The entries of a request are in memory exactly if** every round's calls succeed, and those
that were skipped are the ones that the log held. -/
theorem stored_in_memory_iff (h : l.Tracked) (hprev : prev ≤ l.entries.length) :
    (l.appendLoop calls prev entries).InMemory prev entries ↔
      l.HoldsSkipped prev entries ∧ l.RoundsSucceed calls prev entries :=
  ⟨RoundsSucceed.of_inMemory h hprev, fun hs => hs.2.inMemory h hprev hs.1⟩

/-! ## Requests that are stored in the WAL -/

/-- The WAL has the entries of the request, at their positions. -/
def InWal (l : DiskLog) (prev : Nat) (entries : List LogEntry) : Prop :=
  ∀ j e, entries[j]? = some e →
    (scanWal l.file).frames[prev + j]? = some { e with index := prev + j + 1 }

/-- **What it takes to store a request**: the calls of every round succeed, an entry that is skipped
is the one that the log holds, and every new one has a key and, for a SET, a value, of a length that
a record can have. -/
structure Stores (l : DiskLog) (calls : Nat → EntryCalls) (prev : Nat) (entries : List LogEntry) :
    Prop where
  rounds : l.RoundsSucceed calls prev entries
  skipped : l.HoldsSkipped prev entries
  readable : ∀ e ∈ l.view.newEntries prev entries, e.readable = true

theorem Usable.appendLoop (calls : Nat → EntryCalls) :
    ∀ (entries : List LogEntry) {l : DiskLog} (index : Nat), l.Usable →
      (l.appendLoop calls index entries).Usable
  | [], _, _, h => h
  | entry :: rest, l, index, h => by
    unfold DiskLog.appendLoop
    cases l.get (index + 1) with
    | none => exact Usable.appendLoop calls rest (index + 1) (h.append entry _)
    | some existing =>
      dsimp only
      split
      · exact Usable.appendLoop calls rest (index + 1) h
      · exact Usable.appendLoop calls rest (index + 1) ((h.truncateFrom index _).1.append entry _)

/-- The records that the loop writes for the entries that are new to the log. -/
def written (l : DiskLog) (prev : Nat) (entries : List LogEntry) : List WalRecord :=
  renumber (l.view.firstNew prev entries).1 (l.view.newEntries prev entries)

/-- **A scan gets to the new records**: the file is written anew for them, or what stands behind the
last whole record begins with their bytes. -/
def Reaches (l : DiskLog) (tail : Bytes) (prev : Nat) (entries : List LogEntry) : Prop :=
  l.view.Conflicts prev entries ∨
    encodeAll encodeWalRecord (l.written prev entries) <+:
      tail ++ encodeAll encodeWalRecord (l.written prev entries)

/-- It does if no record is torn, if nothing is new, and if the log is truncated. -/
theorem reaches_of_clear {tail : Bytes} (h : tail = [] ∨ l.view.newEntries prev entries = [] ∨
    l.view.Conflicts prev entries) : l.Reaches tail prev entries := by
  rcases h with rfl | hnew | hconf
  · exact Or.inr List.prefix_rfl
  · refine Or.inr ?_
    rw [written, hnew]
    exact List.nil_prefix
  · exact Or.inl hconf

theorem OnDisk.length_le_file {tail : Bytes} (h : l.OnDisk tail) (hprev : prev ≤ l.entries.length)
    (hr : l.RoundsSucceed calls prev entries) :
    (encodeAll encodeWalRecord (l.appendLoop calls prev entries).entries).length ≤
      (l.appendLoop calls prev entries).file.length := by
  rcases (hr.wrote h.tracked hprev).2 with ⟨_, _, hfile⟩ | ⟨_, hentries, hfile⟩
  · rw [hfile]
  · rw [hfile, hentries, encodeAll_append, h.file]
    simp only [List.length_append]
    omega

/-- **Every entry of the log can be read back after a request that is stored.** -/
theorem OnDisk.appendLoop_encodable {tail : Bytes} (h : l.OnDisk tail)
    (hprev : prev ≤ l.entries.length) (hs : l.Stores calls prev entries)
    (hterms : ∀ e ∈ entries, e.term < 2 ^ 64)
    (hsize : (l.appendLoop calls prev entries).file.length ≤ maxFileSize) :
    ∀ e ∈ (l.appendLoop calls prev entries).entries, e.Encodable := by
  intro e he
  have hnumbered := (hs.rounds.wrote h.tracked hprev).1.numbered
  have hindex := index_lt_of_file hnumbered
    (Nat.le_trans (h.length_le_file hprev hs.rounds) hsize) he
  obtain ⟨kept, hkept, hentries⟩ :=
    LogFile.appendLoop_kept (l := l.toFile) entries h.tracked.contiguous hprev
  rw [← hs.rounds.toFile h.tracked hprev] at hentries
  rw [show (l.appendLoop calls prev entries).entries = _ from hentries] at he
  rcases List.mem_append.mp he with hold | hnew
  · exact h.encodable e (hkept.subset hold)
  · obtain ⟨x, hx, heq⟩ := exists_of_mem_renumber hnew
    rw [heq]
    exact ⟨hs.readable x hx, hterms x (Log.newEntries_subset l.view entries prev x hx), hindex⟩

/-- **The file begins with the log exactly if** a scan gets to the new records. -/
theorem OnDisk.reaches_iff {tail : Bytes} (h : l.OnDisk tail) (hprev : prev ≤ l.entries.length)
    (hr : l.RoundsSucceed calls prev entries) :
    encodeAll encodeWalRecord (l.appendLoop calls prev entries).entries <+:
        (l.appendLoop calls prev entries).file ↔ l.Reaches tail prev entries := by
  rcases (hr.wrote h.tracked hprev).2 with ⟨hconf, _, hfile⟩ | ⟨hconf, hentries, hfile⟩
  · rw [hfile]
    exact ⟨fun _ => Or.inl hconf, fun _ => List.prefix_rfl⟩
  · rw [hentries, hfile, h.file, encodeAll_append, List.append_assoc, List.prefix_append_right_inj]
    exact ⟨Or.inr, fun hreach => hreach.resolve_left hconf⟩

/-- **The WAL has the request exactly if** it has the whole log. -/
theorem OnDisk.inWal_iff {tail : Bytes} (h : l.OnDisk tail) (hprev : prev ≤ l.entries.length)
    (hr : l.RoundsSucceed calls prev entries)
    (hmem : (l.appendLoop calls prev entries).InMemory prev entries)
    (hall : ∀ e ∈ (l.appendLoop calls prev entries).entries, e.Encodable) :
    (l.appendLoop calls prev entries).InWal prev entries ↔
      (l.appendLoop calls prev entries).entries <+:
        (scanWal (l.appendLoop calls prev entries).file).frames := by
  constructor
  · intro hwal
    rcases (hr.wrote h.tracked hprev).2 with ⟨_, _, hfile⟩ | ⟨hconf, hentries, hfile⟩
    · rw [isPrefix_scanWal_iff hall, hfile]
    · -- the old entries are there in any case, the new ones by assumption
      have hold : l.entries <+: (scanWal (l.appendLoop calls prev entries).file).frames := by
        rw [isPrefix_scanWal_iff h.encodable, hfile, h.file, List.append_assoc]
        exact List.prefix_append _ _
      refine List.prefix_iff_getElem?.mpr fun i hi => ?_
      by_cases hlt : i < l.entries.length
      · rw [Consensus.getElem?_of_isPrefix hold (List.getElem?_eq_getElem hlt)]
        simp only [hentries, List.getElem_append_left hlt]
      · obtain ⟨j, rfl⟩ := Nat.exists_eq_add_of_le (Nat.le_trans hprev (Nat.le_of_not_lt hlt))
        have hj : j < entries.length := by
          -- new entries that conflict with nothing start at the end of the log
          have hlen := congrArg List.length hentries
          rw [List.length_append, length_renumber] at hlen
          obtain ⟨held, hsplit, hp⟩ := Log.firstNew_split l.view entries prev
          have hcount := congrArg List.length hsplit
          rw [List.length_append] at hcount
          have hne : l.view.newEntries prev entries ≠ [] := by
            intro hnil
            rw [hnil, List.length_nil] at hlen
            omega
          have hend : l.entries.length ≤ (l.view.firstNew prev entries).1 :=
            Nat.le_of_not_lt fun hlt => hconf ⟨hne, hlt⟩
          omega
        have hget := (get_eq_some.mp (hmem j _ (List.getElem?_eq_getElem hj))).1
        rw [List.getElem?_eq_getElem hi] at hget
        rw [hwal j _ (List.getElem?_eq_getElem hj), ← hget]
  · intro hlog j e he
    exact Consensus.getElem?_of_isPrefix hlog (get_eq_some.mp (hmem j e he)).1

/-- **Memory and file hold the same log after a request that is stored.** -/
theorem InSync.appendLoop (h : l.InSync) (hprev : prev ≤ l.entries.length)
    (hs : l.Stores calls prev entries) (hterms : ∀ e ∈ entries, e.term < 2 ^ 64)
    (hsize : (l.appendLoop calls prev entries).file.length ≤ maxFileSize) :
    (l.appendLoop calls prev entries).InSync := by
  obtain ⟨hcont, hwrote⟩ := hs.rounds.wrote h.tracked hprev
  refine ⟨⟨h.tracked.usable.appendLoop calls entries prev, hcont.numbered, hcont.lastIndex⟩,
    h.onDisk.appendLoop_encodable hprev hs hterms hsize, ?_⟩
  rcases hwrote with ⟨_, _, hfile⟩ | ⟨_, hentries, hfile⟩
  · exact hfile
  · rw [hfile, hentries, encodeAll_append, h.file]

end Memory

end DiskLog

/-! ## Acknowledged requests -/

namespace RaftNode

variable {node : RaftNode} {disk : DiskLog} {req : AppendEntriesRequest}

/-- **Where no system call fails** this is the handler on a log that cannot fail. -/
theorem handleAppendEntriesOn_faultless (h : disk.Usable) :
    (node.handleAppendEntriesOn disk req (fun _ => {})).1 =
        (({ node with log := disk.view } : RaftNode).handleAppendEntries req).1 ∧
      (node.handleAppendEntriesOn disk req (fun _ => {})).2.2 =
        (({ node with log := disk.view } : RaftNode).handleAppendEntries req).2 ∧
      (node.handleAppendEntriesOn disk req (fun _ => {})).2.1.file =
        ({ node with log := disk.view } : RaftNode).walAfter req disk.file := by
  have hloop := disk.appendLoop_faultless req.entries req.prevLogIndex h
  have hfile := congrArg LogFile.bytes hloop
  have hlog : (disk.appendLoop (fun _ => {}) req.prevLogIndex req.entries).view =
      appendLoop disk.view req.prevLogIndex req.entries := by
    rw [show disk.view = disk.toFile.log from rfl, ← LogFile.appendLoop_log, ← hloop]
    rfl
  have haccept := (({ node with log := disk.view } : RaftNode).acceptLeader_fields req).1
  unfold walAfter handleAppendEntriesOn handleAppendEntries
  dsimp only
  split
  · exact ⟨rfl, rfl, rfl⟩
  · split
    · exact ⟨rfl, rfl, rfl⟩
    · refine ⟨?_, rfl, hfile⟩
      dsimp only
      rw [haccept, hlog]

/-- A request is refused and changes nothing on disk, or it is acknowledged, whatever the loop
did. -/
theorem handleAppendEntriesOn_disk (node : RaftNode) (req : AppendEntriesRequest)
    (calls : Nat → EntryCalls) (h : disk.Tracked) :
    ((node.handleAppendEntriesOn disk req calls).2.2.success = false ∧
        (node.handleAppendEntriesOn disk req calls).2.1 = disk) ∨
      ((node.handleAppendEntriesOn disk req calls).2.2.success = true ∧
        req.prevLogIndex ≤ disk.entries.length ∧
        (node.handleAppendEntriesOn disk req calls).2.1 =
          disk.appendLoop calls req.prevLogIndex req.entries) := by
  unfold handleAppendEntriesOn
  dsimp only
  split
  · exact Or.inl ⟨rfl, rfl⟩
  · split
    · exact Or.inl ⟨rfl, rfl⟩
    · rename_i hprev
      have haccepted : (({ node with log := disk.view } : RaftNode).acceptLeader req).prevMismatch
          req = false := by simpa using hprev
      exact Or.inr ⟨rfl, (hasPrev_of_accepted h.contiguous haccepted).le, rfl⟩

end RaftNode

/-- Behind a torn record the entry is in memory and no scan of the file finds it. -/
example :
    let after := ((RaftNode.fresh fun _ => 0).handleAppendEntriesOn
        (DiskLog.load ((encodeWalRecord ⟨1, 1, .kSet, [97], [49]⟩).take 3))
        { term := 1, leaderId := 1, prevLogIndex := 0, prevLogTerm := 0, leaderCommit := 0
          entries := [⟨1, 1, .kSet, [97], [49]⟩] }
        (fun _ => {})).2
    after.2.success = true ∧ after.1.entries = [⟨1, 1, .kSet, [97], [49]⟩] ∧
      (scanWal after.1.file).frames = [] := by
  decide +kernel

/-! ## Along a run -/

/-- A follower and its log on disk. -/
structure DiskFollower where
  node : RaftNode
  disk : DiskLog

namespace DiskFollower

/-- A request arrives, and the system calls of the rounds turn out as they do.  No `write` gets
beyond the range of file offsets. -/
def receive (f : DiskFollower) (arrival : AppendEntriesRequest × (Nat → EntryCalls)) :
    Option DiskFollower :=
  match f.node.handleAppendEntriesOn f.disk arrival.1 arrival.2 with
  | (node, disk, _) => if maxFileSize < disk.file.length then none else some ⟨node, disk⟩

/-- If the request is acknowledged, it is one that is stored. -/
def StoresAcknowledged (f : DiskFollower)
    (arrival : AppendEntriesRequest × (Nat → EntryCalls)) : Prop :=
  (f.node.handleAppendEntriesOn f.disk arrival.1 arrival.2).2.2.success = true →
    f.disk.Stores arrival.2 arrival.1.prevLogIndex arrival.1.entries ∧
      ∀ e ∈ arrival.1.entries, e.term < 2 ^ 64

theorem receive_inSync {f f' : DiskFollower} {arrival : AppendEntriesRequest × (Nat → EntryCalls)}
    (h : f.disk.InSync) (hok : f.StoresAcknowledged arrival) (hs : f.receive arrival = some f') :
    f'.disk.InSync := by
  unfold receive at hs
  dsimp only at hs
  split at hs
  · cases hs
  · rename_i hsize
    cases hs
    rcases f.node.handleAppendEntriesOn_disk arrival.1 arrival.2 h.tracked with
      ⟨_, hdisk⟩ | ⟨hsuccess, hprev, hdisk⟩
    · rw [hdisk]
      exact h
    · obtain ⟨hstores, hterms⟩ := hok hsuccess
      rw [hdisk] at hsize ⊢
      exact h.appendLoop hprev hstores hterms (Nat.le_of_not_lt hsize)

/-- **Memory and WAL stay the same log** while every acknowledged request is one that is stored. -/
theorem run_inSync {f₀ f : DiskFollower} (h₀ : f₀.disk.InSync)
    (hr : Runs.Run receive f₀ StoresAcknowledged f) : f.disk.InSync := by
  induction hr with
  | init => exact h₀
  | step _ hok hs ih => exact receive_inSync ih hok hs

end DiskFollower

end NeuralKV
