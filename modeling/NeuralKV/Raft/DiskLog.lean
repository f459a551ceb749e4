import NeuralKV.Persistence.Recovery
import NeuralKV.Raft.Restart

/-!
# The Raft log on a disk that can fail

Model of `Log::Append`, `Log::TruncateFrom` and `Log::Load` of `src/raft/log.cpp` and of
`WalWriter::RewriteAll` of `src/persistence/wal_writer.cpp`, down to the system calls: any `write`,
`fsync`, `ftruncate` or `lseek` may fail, and the caller carries on.

* `DiskLog` — the entries in memory, the counters of the writer, and the bytes of `wal.log`.
* `append_cases`, `truncateFrom_cases` — what a call leaves behind, for every outcome of its system
  calls.
* `log_is_wal` — **memory and file are the same log** in every run of calls that succeed, with any
  number of restarts.
* `log_contiguous_run` — **the entries stay numbered by position** in every run in which no `fsync`
  of an append fails and no truncation that drops entries fails.
* `truncation_crash_safe_iff` — **a crash inside `TruncateFrom` loses no entry below the conflict
  exactly if** it comes before the `ftruncate`, or when all of them are written again.
-/

set_option autoImplicit false

namespace NeuralKV

open Framing
open Runs (exists_run)

/-! ## System calls -/

/-- Outcome of the system calls of `Log::Append`: `write` and `fsync`. -/
structure AppendCalls where
  write : WriteOutcome := .complete
  fsync : Option String := none
  deriving DecidableEq, Repr

/-- Outcome of the system calls of `RewriteAll`.  `write` is about the bytes of all records: a
failure after as many bytes as there are does not happen. -/
structure RewriteCalls where
  ftruncate : Option String := none
  lseek : Option String := none
  write : WriteOutcome := .complete
  fsync : Option String := none
  deriving DecidableEq, Repr

/-- The loop of `RewriteAll`: the file, and the error of the `write` that ended the loop. -/
def writeRecords : Bytes → WriteOutcome → List WalRecord → Bytes × Option String
  | file, _, [] => (file, none)
  | file, .complete, r :: rs => writeRecords (file ++ encodeWalRecord r) .complete rs
  | file, .failed written errno, r :: rs =>
    if written < (encodeWalRecord r).length then
      (file ++ (encodeWalRecord r).take written, some errno)
    else
      writeRecords (file ++ encodeWalRecord r)
        (.failed (written - (encodeWalRecord r).length) errno) rs

/-- The `write` calls bring `bytes` bytes to the file. -/
def WriteOutcome.Writes (outcome : WriteOutcome) (bytes : Nat) : Prop :=
  ∀ written errno, outcome = .failed written errno → bytes ≤ written

instance (outcome : WriteOutcome) (bytes : Nat) : Decidable (outcome.Writes bytes) :=
  match outcome with
  | .complete => isTrue fun _ _ h => (by cases h)
  | .failed written _ =>
    decidable_of_iff (bytes ≤ written)
      ⟨fun h _ _ heq => (by cases heq; exact h), fun h => h _ _ rfl⟩

/-- The calls of an append all succeed. -/
structure AppendCalls.Succeed (calls : AppendCalls) : Prop where
  write : calls.write = .complete
  fsync : calls.fsync = none

/-- The calls that rewrite the file to `records` all succeed. -/
structure RewriteCalls.Succeed (calls : RewriteCalls) (records : List WalRecord) : Prop where
  ftruncate : calls.ftruncate = none
  lseek : calls.lseek = none
  write : calls.write.Writes (encodeAll encodeWalRecord records).length
  fsync : calls.fsync = none

instance (calls : RewriteCalls) (records : List WalRecord) : Decidable (calls.Succeed records) :=
  decidable_of_iff
    (calls.ftruncate = none ∧ calls.lseek = none ∧
      calls.write.Writes (encodeAll encodeWalRecord records).length ∧ calls.fsync = none)
    ⟨fun h => ⟨h.1, h.2.1, h.2.2.1, h.2.2.2⟩, fun h => ⟨h.ftruncate, h.lseek, h.write, h.fsync⟩⟩

/-- What the loop writes: everything, or as much as `write` did. -/
theorem writeRecords_cases (outcome : WriteOutcome) (rs : List WalRecord) (file : Bytes) :
    (outcome.Writes (encodeAll encodeWalRecord rs).length ∧
        writeRecords file outcome rs = (file ++ encodeAll encodeWalRecord rs, none)) ∨
      ∃ written errno, outcome = .failed written errno ∧
        written < (encodeAll encodeWalRecord rs).length ∧
        writeRecords file outcome rs =
          (file ++ (encodeAll encodeWalRecord rs).take written, some errno) := by
  induction rs generalizing file outcome with
  | nil =>
    left
    refine ⟨fun written errno _ => Nat.zero_le _, ?_⟩
    simp [writeRecords]
  | cons r rs ih =>
    cases outcome with
    | complete =>
      left
      refine ⟨fun written errno h => (by cases h), ?_⟩
      rcases ih .complete (file ++ encodeWalRecord r) with ⟨_, h⟩ | ⟨_, _, h, _⟩
      · rw [writeRecords, h, encodeAll_cons, List.append_assoc]
      · cases h
    | failed written errno =>
      by_cases hlt : written < (encodeWalRecord r).length
      · right
        refine ⟨written, errno, rfl, ?_, ?_⟩
        · rw [encodeAll_cons, List.length_append]
          omega
        · rw [writeRecords, if_pos hlt, encodeAll_cons,
            List.take_append_of_le_length (Nat.le_of_lt hlt)]
      · rw [writeRecords, if_neg hlt, encodeAll_cons]
        rcases ih (.failed (written - (encodeWalRecord r).length) errno)
          (file ++ encodeWalRecord r) with ⟨hall, h⟩ | ⟨w, e, houtcome, hw, h⟩
        · left
          refine ⟨?_, ?_⟩
          · intro w e hwe
            cases hwe
            have := hall _ _ rfl
            rw [List.length_append]
            omega
          · rw [h, List.append_assoc]
        · right
          cases houtcome
          refine ⟨written, errno, rfl, ?_, ?_⟩
          · rw [List.length_append]
            omega
          · rw [h, List.take_append, List.take_of_length_le (Nat.le_of_not_lt hlt),
              List.append_assoc]

namespace WalWriter

/-- `Sync` of a caller that shares the writer with nobody: it returns, or leads its own batch. -/
def sync (wal : WalWriter) (atLeastIndex : Nat) (errno : Option String) : WalWriter × Status :=
  match wal.syncEnter atLeastIndex with
  | (wal, .returned status) => (wal, status)
  | (wal, _) =>
    match wal.syncFlush errno with
    | (wal, .returned status) => (wal, status)
    | (wal, _) => (wal, .Ok)

/-- A caller whose index no flush has covered flushes, whether or not the flag was set. -/
theorem sync_ahead (wal : WalWriter) (hopen : wal.openStatus.ok = true) {atLeastIndex : Nat}
    (hlt : wal.syncedIndex < atLeastIndex) (errno : Option String) :
    wal.sync atLeastIndex errno =
      match errno with
      | none => ({ wal with syncedIndex := wal.lastIndex, flushInProgress := false }, .Ok)
      | some errno =>
        ({ wal with flushInProgress := false }, ⟨.kIOError, "fsync wal: " ++ errno⟩) := by
  unfold sync syncEnter
  rw [hopen, if_neg (by decide), if_neg (Nat.not_le.mpr hlt)]
  cases wal.flushInProgress with
  | false => cases errno <;> rfl
  | true => cases errno <;> rfl

/-- `WalWriter::RewriteAll`: the counters move only when everything has succeeded. -/
def rewriteAll (wal : WalWriter) (file : Bytes) (records : List WalRecord) (calls : RewriteCalls) :
    WalWriter × Bytes × Status :=
  if !wal.openStatus.ok then (wal, file, wal.openStatus)
  else
    match calls.ftruncate with
    | some errno => (wal, file, ⟨.kIOError, "ftruncate wal: " ++ errno⟩)
    | none =>
      match calls.lseek with
      | some errno => (wal, [], ⟨.kIOError, "lseek wal: " ++ errno⟩)
      | none =>
        match writeRecords [] calls.write records with
        | (file, some errno) => (wal, file, ⟨.kIOError, "write wal: " ++ errno⟩)
        | (file, none) =>
          match calls.fsync with
          | some errno => (wal, file, ⟨.kIOError, "fsync wal: " ++ errno⟩)
          | none =>
            ({ wal with lastIndex := lastIndexOf records, syncedIndex := lastIndexOf records },
              file, .Ok)

end WalWriter

/-! ## The log -/

/-- `raft::Log`, its `WalWriter` and the bytes of `wal.log`. -/
structure DiskLog where
  entries : List LogEntry := []
  wal : WalWriter := {}
  file : Bytes := []

namespace DiskLog

/-- A process starts on `file`: `WalWriter::OpenOrCreate` and `Log::Load`. -/
def load (file : Bytes) : DiskLog where
  entries := (Log.loadFile file).2
  wal := WalWriter.openOrCreate file
  file := file

/-- `Log::Append`. -/
def append (l : DiskLog) (entry : LogEntry) (calls : AppendCalls) : DiskLog × Status :=
  match l.wal.append entry calls.write with
  | (wal, bytes, .error status) => ({ l with wal, file := l.file ++ bytes }, status)
  | (wal, bytes, .ok record) =>
    let (wal, status) := wal.sync record.index calls.fsync
    if !status.ok then ({ l with wal, file := l.file ++ bytes }, status)
    else ({ entries := l.entries ++ [record], wal, file := l.file ++ bytes }, .Ok)

/-- The entries that `TruncateFrom(fromIndex)` leaves. -/
def kept (l : DiskLog) (fromIndex : Nat) : List LogEntry :=
  l.entries.rdropWhile (fun e => decide (fromIndex ≤ e.index))

/-- `Log::TruncateFrom`: memory first, then the file. -/
def truncateFrom (l : DiskLog) (fromIndex : Nat) (calls : RewriteCalls) : DiskLog × Status :=
  if fromIndex = 0 then
    (l, ⟨.kInvalidArgument, "TruncateFrom(0) would drop the entire log"⟩)
  else
    let (wal, file, status) := l.wal.rewriteAll l.file (l.kept fromIndex) calls
    ({ entries := l.kept fromIndex, wal, file }, status)

/-- `Log::Get`. -/
def get (l : DiskLog) (index : Nat) : Option LogEntry := Log.get { entries := l.entries } index

/-- `Log::LastIndex`. -/
def lastIndex (l : DiskLog) : Nat := lastIndexOf l.entries

/-! ## What a call leaves behind -/

variable {l l' : DiskLog}

/-- The writer can be used, and no flush is ahead of it. -/
structure Usable (l : DiskLog) : Prop where
  open_ok : l.wal.openStatus.ok = true
  synced_le : l.wal.syncedIndex ≤ l.wal.lastIndex

/-- **`Append`**: nothing or part of a record is written; or the record is written, the counter has
moved, and only the entry in memory is missing; or all is well. -/
theorem append_cases (h : l.Usable) (entry : LogEntry) (calls : AppendCalls) :
    (∃ written errno, calls.write = .failed written errno ∧
        l.append entry calls =
          ({ l with
              file := l.file ++ (encodeWalRecord
                { entry with index := l.wal.lastIndex + 1 }).take written },
            ⟨.kIOError, "write wal: " ++ errno⟩)) ∨
      (∃ errno, calls.write = .complete ∧ calls.fsync = some errno ∧
        l.append entry calls =
          ({ l with
              wal := { l.wal with lastIndex := l.wal.lastIndex + 1, flushInProgress := false }
              file := l.file ++ encodeWalRecord { entry with index := l.wal.lastIndex + 1 } },
            ⟨.kIOError, "fsync wal: " ++ errno⟩)) ∨
      (calls.write = .complete ∧ calls.fsync = none ∧
        l.append entry calls =
          (⟨l.entries ++ [{ entry with index := l.wal.lastIndex + 1 }],
            { l.wal with
              lastIndex := l.wal.lastIndex + 1
              syncedIndex := l.wal.lastIndex + 1
              flushInProgress := false },
            l.file ++ encodeWalRecord { entry with index := l.wal.lastIndex + 1 }⟩, .Ok)) := by
  have hahead : l.wal.syncedIndex < l.wal.lastIndex + 1 := Nat.lt_succ_of_le h.synced_le
  unfold append WalWriter.append
  simp only [h.open_ok, Bool.not_true, Bool.false_eq_true, if_false]
  cases hwrite : calls.write with
  | failed written errno => exact Or.inl ⟨written, errno, rfl, rfl⟩
  | complete =>
    right
    dsimp only
    rw [WalWriter.sync_ahead { l.wal with lastIndex := l.wal.lastIndex + 1 } h.open_ok hahead]
    cases calls.fsync with
    | none => exact Or.inr ⟨rfl, rfl, rfl⟩
    | some errno => exact Or.inl ⟨errno, rfl, rfl, rfl⟩

/-- **`TruncateFrom`**: memory is cut in any case; file and counters follow only if every call
succeeds. -/
theorem truncateFrom_cases (h : l.Usable) {fromIndex : Nat} (hfrom : fromIndex ≠ 0)
    (calls : RewriteCalls) :
    (calls.Succeed (l.kept fromIndex) ∧
        l.truncateFrom fromIndex calls =
          (⟨l.kept fromIndex,
            { l.wal with
              lastIndex := lastIndexOf (l.kept fromIndex)
              syncedIndex := lastIndexOf (l.kept fromIndex) },
            encodeAll encodeWalRecord (l.kept fromIndex)⟩, .Ok)) ∨
      (¬ calls.Succeed (l.kept fromIndex) ∧ ∃ file status, status.ok = false ∧
        l.truncateFrom fromIndex calls = (⟨l.kept fromIndex, l.wal, file⟩, status)) := by
  unfold truncateFrom WalWriter.rewriteAll
  rw [if_neg hfrom, h.open_ok, if_neg (by decide)]
  cases hcut : calls.ftruncate with
  | some errno =>
    exact Or.inr ⟨fun hs => absurd (hcut.symm.trans hs.ftruncate) (by simp), _, _, rfl, rfl⟩
  | none =>
    cases hseek : calls.lseek with
    | some errno =>
      exact Or.inr ⟨fun hs => absurd (hseek.symm.trans hs.lseek) (by simp), _, _, rfl, rfl⟩
    | none =>
      rcases writeRecords_cases calls.write (l.kept fromIndex) [] with
        ⟨hall, hwritten⟩ | ⟨written, errno, houtcome, hlt, hwritten⟩
      · simp only [hwritten, List.nil_append]
        cases hsync : calls.fsync with
        | some errno =>
          exact Or.inr ⟨fun hs => absurd (hsync.symm.trans hs.fsync) (by simp), _, _, rfl, rfl⟩
        | none => exact Or.inl ⟨⟨hcut, hseek, hall, hsync⟩, rfl⟩
      · simp only [hwritten]
        refine Or.inr ⟨fun hs => ?_, _, _, rfl, rfl⟩
        have := hs.write written errno houtcome
        omega

theorem kept_eq_take (hnum : Numbered l.entries) (k : Nat) :
    l.kept (k + 1) = l.entries.take k := Log.rdropWhile_numbered hnum k

/-! ## Runs of calls -/

end DiskLog

/-- A call, with the outcome of its system calls; `load` is a restart. -/
inductive LogCall where
  | append (entry : LogEntry) (calls : AppendCalls)
  | truncateFrom (fromIndex : Nat) (calls : RewriteCalls)
  | load
  deriving DecidableEq, Repr

namespace DiskLog

variable {l l' : DiskLog}

/-- One call.  No `write` gets beyond the range of file offsets. -/
def step (l : DiskLog) : LogCall → Option DiskLog
  | .append entry calls =>
    if maxFileSize < (l.append entry calls).1.file.length then none
    else some (l.append entry calls).1
  | .truncateFrom fromIndex calls => some (l.truncateFrom fromIndex calls).1
  | .load => some (load l.file)

/-- The states reached from `file` by calls that all satisfy `ok`. -/
abbrev Run (file : Bytes) (ok : DiskLog → LogCall → Prop) : DiskLog → Prop :=
  Runs.Run step (load file) ok

/-- The writer counts the entries, and they are numbered by position. -/
structure Tracked (l : DiskLog) : Prop where
  usable : l.Usable
  numbered : Numbered l.entries
  counted : l.wal.lastIndex = l.entries.length

theorem Tracked.lastIndex_eq (h : l.Tracked) : l.lastIndex = l.entries.length :=
  h.numbered.getLast

theorem Tracked.load {file : Bytes} (herror : (scanWal file).error = none)
    (hnum : Numbered (scanWal file).frames) : (load file).Tracked := by
  refine ⟨⟨?_, ?_⟩, hnum, ?_⟩
  · simp [DiskLog.load, WalWriter.openOrCreate, herror]
  · simp [DiskLog.load, WalWriter.openOrCreate, herror]
  · simp only [DiskLog.load, WalWriter.openOrCreate, herror]
    exact hnum.getLast

theorem Tracked.append (h : l.Tracked) (entry : LogEntry) {calls : AppendCalls}
    (hsync : calls.write = .complete → calls.fsync = none) : (l.append entry calls).1.Tracked := by
  rcases append_cases h.usable entry calls with
    ⟨written, errno, _, heq⟩ | ⟨errno, hwrite, hfail, _⟩ | ⟨_, _, heq⟩
  · rw [heq]
    exact ⟨⟨h.usable.open_ok, h.usable.synced_le⟩, h.numbered, h.counted⟩
  · exact absurd (hfail.symm.trans (hsync hwrite)) (by simp)
  · rw [heq]
    refine ⟨⟨h.usable.open_ok, Nat.le_refl _⟩, h.numbered.concat ?_, ?_⟩
    · rw [h.counted]
    · simp [h.counted]

theorem Tracked.truncated (h : l.Tracked) (k : Nat) :
    Tracked ⟨l.kept (k + 1),
      { l.wal with
        lastIndex := lastIndexOf (l.kept (k + 1))
        syncedIndex := lastIndexOf (l.kept (k + 1)) },
      encodeAll encodeWalRecord (l.kept (k + 1))⟩ := by
  have hnum : Numbered (l.kept (k + 1)) := by
    rw [kept_eq_take h.numbered]
    exact h.numbered.of_isPrefix (List.take_prefix k _)
  exact ⟨⟨h.usable.open_ok, Nat.le_refl _⟩, hnum, hnum.getLast⟩

/-! ## All calls succeed -/

/-- Memory and file hold the same log. -/
structure InSync (l : DiskLog) : Prop where
  tracked : l.Tracked
  encodable : ∀ e ∈ l.entries, e.Encodable
  file : l.file = encodeAll encodeWalRecord l.entries

theorem InSync.restartable (h : l.InSync) : Restartable l.file l.entries :=
  restartable_iff_bytes.mpr ⟨h.encodable, h.file⟩

/-- The file reads as the log in memory, up to the bytes `tail` of a torn record. -/
structure OnDisk (l : DiskLog) (tail : Bytes) : Prop where
  tracked : l.Tracked
  read : scanWal l.file = ⟨l.entries, tail, none⟩

theorem InSync.onDisk (h : l.InSync) : l.OnDisk [] :=
  ⟨h.tracked, restartable_iff_scan.mp h.restartable⟩

/-- **Every start gives such a log**, if the records are numbered and none of them is damaged. -/
theorem OnDisk.load {file : Bytes} (herror : (scanWal file).error = none)
    (hnum : Numbered (scanWal file).frames) : (load file).OnDisk (scanWal file).tail := by
  refine ⟨Tracked.load herror hnum, ?_⟩
  cases hscan : scanWal file with
  | mk frames tail error =>
    rw [hscan] at herror
    simp only [DiskLog.load, Log.loadFile, hscan]
    rw [show error = none from herror]

theorem OnDisk.encodable {tail : Bytes} (h : l.OnDisk tail) : ∀ e ∈ l.entries, e.Encodable := by
  have hsound := (scanWal_sound l.file).1
  rwa [h.read] at hsound

theorem OnDisk.file {tail : Bytes} (h : l.OnDisk tail) :
    l.file = encodeAll encodeWalRecord l.entries ++ tail := by
  have hsound := (scanWal_sound l.file).2
  rwa [h.read] at hsound

theorem InSync.empty : (load []).InSync :=
  ⟨Tracked.load rfl Numbered.nil, fun e he => (by cases he), rfl⟩

theorem InSync.load (h : l.InSync) : (load l.file).InSync := by
  have hscan := restartable_iff_scan.mp h.restartable
  have herror : (scanWal l.file).error = none := by rw [hscan]
  have hframes : (scanWal l.file).frames = l.entries := by rw [hscan]
  refine ⟨Tracked.load herror (hframes.symm ▸ h.tracked.numbered), ?_, ?_⟩
  · simpa only [DiskLog.load, Log.loadFile, hframes] using h.encodable
  · simpa only [DiskLog.load, Log.loadFile, hframes] using h.file

/-- The call returns `Ok`; an entry to append has a key, a SET a value, and no field is longer than
a record allows. -/
def Succeeds (l : DiskLog) : LogCall → Prop
  | .append entry calls =>
    (l.append entry calls).2.ok = true ∧ entry.readable = true ∧ entry.term < 2 ^ 64
  | .truncateFrom fromIndex calls =>
    1 ≤ fromIndex ∧ (l.truncateFrom fromIndex calls).2.ok = true
  | .load => True

instance (l : DiskLog) (a : LogCall) : Decidable (l.Succeeds a) := by
  unfold Succeeds
  split <;> infer_instance

theorem InSync.append (h : l.InSync) {entry : LogEntry} {calls : AppendCalls}
    (hok : (l.append entry calls).2.ok = true) (hreadable : entry.readable = true)
    (hterm : entry.term < 2 ^ 64)
    (hsize : (l.append entry calls).1.file.length ≤ maxFileSize) :
    (l.append entry calls).1.InSync := by
  rcases append_cases h.tracked.usable entry calls with
    ⟨written, errno, _, heq⟩ | ⟨errno, _, _, heq⟩ | ⟨_, hsync, heq⟩
  · rw [heq] at hok
    cases hok
  · rw [heq] at hok
    cases hok
  · have htracked := h.tracked.append entry fun _ => hsync
    rw [heq] at hsize htracked ⊢
    have hfile : l.file ++ encodeWalRecord { entry with index := l.wal.lastIndex + 1 } =
        encodeAll encodeWalRecord (l.entries ++ [{ entry with index := l.wal.lastIndex + 1 }]) := by
      rw [encodeAll_concat, h.file]
    refine ⟨htracked, ?_, hfile⟩
    intro e he
    have hindex := index_lt_of_file htracked.numbered (hfile ▸ hsize) he
    rcases List.mem_append.mp he with he | he
    · exact h.encodable e he
    · cases List.mem_singleton.mp he
      exact ⟨hreadable, hterm, hindex⟩

theorem InSync.truncateFrom (h : l.InSync) {fromIndex : Nat} {calls : RewriteCalls}
    (hfrom : 1 ≤ fromIndex) (hok : (l.truncateFrom fromIndex calls).2.ok = true) :
    (l.truncateFrom fromIndex calls).1.InSync := by
  obtain ⟨k, rfl⟩ : ∃ k, fromIndex = k + 1 := ⟨fromIndex - 1, by omega⟩
  rcases truncateFrom_cases h.tracked.usable (Nat.succ_ne_zero k) calls with
    ⟨_, heq⟩ | ⟨_, file, status, hstatus, heq⟩
  · rw [heq]
    refine ⟨h.tracked.truncated k, ?_, rfl⟩
    intro e he
    rw [kept_eq_take h.tracked.numbered] at he
    exact h.encodable e (List.mem_of_mem_take he)
  · rw [heq, hstatus] at hok
    cases hok

/-- **Every call that succeeds keeps memory and file the same.** -/
theorem InSync.step (h : l.InSync) {a : LogCall} (hok : l.Succeeds a)
    (hs : l.step a = some l') : l'.InSync := by
  cases a with
  | append entry calls =>
    obtain ⟨hstatus, hreadable, hterm⟩ := hok
    simp only [DiskLog.step] at hs
    split at hs
    · cases hs
    · cases hs
      exact h.append hstatus hreadable hterm (by omega)
  | truncateFrom fromIndex calls =>
    cases hs
    exact h.truncateFrom hok.1 hok.2
  | load =>
    cases hs
    exact h.load

theorem run_inSync (hr : Run [] Succeeds l) : l.InSync := by
  induction hr with
  | init => exact InSync.empty
  | step _ hok hs ih => exact ih.step hok hs

end DiskLog

/-- **The in-memory log and the WAL are the same log**, after every sequence of successful appends,
truncations and restarts: entries are numbered by position, the writer's counter is the last index,
the file is the encoding of the entries, and both `Log::Load` and `RecoverFromWal` find them
there. -/
theorem log_is_wal {l : DiskLog} (hr : DiskLog.Run [] DiskLog.Succeeds l) :
    (∀ i e, l.entries[i]? = some e → e.index = i + 1) ∧
      l.wal.lastIndex = l.lastIndex ∧ l.lastIndex = l.entries.length ∧
      l.file = encodeAll encodeWalRecord l.entries ∧
      Log.loadFile l.file = (.Ok, l.entries) ∧ (DiskLog.load l.file).entries = l.entries ∧
      ∀ hash, (recoverFromWal hash l.file).1 = .Ok ∧
        (recoverFromWal hash l.file).2.2 = l.lastIndex := by
  have h := DiskLog.run_inSync hr
  have hscan := restartable_iff_scan.mp h.restartable
  have hloaded := h.restartable.loaded
  have hlast := h.tracked.lastIndex_eq
  refine ⟨h.tracked.numbered, h.tracked.counted.trans hlast.symm, hlast, h.file, hloaded, ?_, ?_⟩
  · simp only [DiskLog.load, hloaded]
  · intro hash
    refine ⟨h.restartable.recovered hash, ?_⟩
    simp only [recoverFromWal, hscan, DiskLog.lastIndex]

/-- Two entries, a restart, and a conflict at the second one. -/
theorem log_is_wal_conflict : ∃ l : DiskLog,
    l.entries = [⟨1, 1, .kSet, [97], [49]⟩, ⟨2, 2, .kDelete, [97], []⟩] ∧
      l.file = encodeAll encodeWalRecord l.entries := by
  obtain ⟨l, hr, hl⟩ : ∃ l : DiskLog, DiskLog.Run [] DiskLog.Succeeds l ∧
      decide (l.entries = [⟨1, 1, .kSet, [97], [49]⟩, ⟨2, 2, .kDelete, [97], []⟩]) = true :=
    exists_run
      [.append ⟨1, 0, .kSet, [97], [49]⟩ {}, .append ⟨1, 0, .kSet, [98], [50]⟩ {}, .load,
        .truncateFrom 2 {}, .append ⟨2, 0, .kDelete, [97], []⟩ {}]
      (by decide +kernel)
  exact ⟨l, of_decide_eq_true hl, (log_is_wal hr).2.2.2.1⟩

/-! ## Calls that fail -/

namespace DiskLog

variable {l l' : DiskLog}

/-- No `fsync` of an append fails, and no truncation that drops entries.  A `write` of an append may
fail, and so may a truncation behind the end of the log. -/
def CountersFollow (l : DiskLog) : LogCall → Prop
  | .append _ calls => calls.write = .complete → calls.fsync = none
  | .truncateFrom fromIndex calls =>
    fromIndex = 0 ∨ l.lastIndex < fromIndex ∨ calls.Succeed (l.kept fromIndex)
  | .load => False

instance (l : DiskLog) (a : LogCall) : Decidable (l.CountersFollow a) := by
  unfold CountersFollow
  split <;> infer_instance

/-- No restart. -/
def OneProcess (_ : DiskLog) (a : LogCall) : Prop := a ≠ .load

instance (l : DiskLog) (a : LogCall) : Decidable (l.OneProcess a) :=
  inferInstanceAs (Decidable (_ ≠ _))

theorem Tracked.truncateFrom (h : l.Tracked) {fromIndex : Nat} {calls : RewriteCalls}
    (hok : l.CountersFollow (.truncateFrom fromIndex calls)) :
    (l.truncateFrom fromIndex calls).1.Tracked := by
  cases fromIndex with
  | zero => exact h
  | succ k =>
    rcases truncateFrom_cases h.usable (Nat.succ_ne_zero k) calls with
      ⟨_, heq⟩ | ⟨hfail, file, status, _, heq⟩
    · rw [heq]
      exact h.truncated k
    · -- the file was not written, but nothing was dropped from memory either
      have hbehind : l.lastIndex < k + 1 := by
        rcases hok with h0 | hlt | hs
        · omega
        · exact hlt
        · exact absurd hs hfail
      have hall : l.kept (k + 1) = l.entries := by
        rw [kept_eq_take h.numbered]
        exact List.take_of_length_le (by rw [← h.lastIndex_eq]; omega)
      rw [heq, hall]
      exact ⟨⟨h.usable.open_ok, h.usable.synced_le⟩, h.numbered, h.counted⟩

/-- **A call whose counters follow keeps the numbering.** -/
theorem Tracked.step (h : l.Tracked) {a : LogCall} (hok : l.CountersFollow a)
    (hs : l.step a = some l') : l'.Tracked := by
  cases a with
  | append entry calls =>
    simp only [DiskLog.step] at hs
    split at hs
    · cases hs
    · cases hs
      exact h.append entry hok
  | truncateFrom fromIndex calls =>
    cases hs
    exact h.truncateFrom hok
  | load => cases hok

theorem Tracked.get_isSome (h : l.Tracked) {j : Nat} (hj : 1 ≤ j) (hle : j ≤ l.lastIndex) :
    (l.get j).isSome = true := by
  have hlt : j - 1 < l.entries.length := by
    rw [h.lastIndex_eq] at hle
    omega
  have hget := List.getElem?_eq_getElem hlt
  have hindex := h.numbered _ _ hget
  unfold get Log.get
  rw [if_neg (by omega)]
  simp only [hget]
  rw [if_pos (by omega)]
  rfl

end DiskLog

/-- **Failures of the disk keep the log contiguous**, in every run of one process in which no
`fsync` of an append and no truncation that drops entries fails: entries are numbered by position,
`Get` finds every one of them, and the writer's counter is the last index, also after an append that
has failed. -/
theorem log_contiguous_run {file : Bytes} (herror : (scanWal file).error = none)
    (hnum : Numbered (scanWal file).frames) {l : DiskLog}
    (hr : DiskLog.Run file DiskLog.CountersFollow l) :
    (∀ i e, l.entries[i]? = some e → e.index = i + 1) ∧
      (∀ j, 1 ≤ j → j ≤ l.lastIndex → (l.get j).isSome = true) ∧
      l.wal.lastIndex = l.lastIndex := by
  have h : l.Tracked := by
    induction hr with
    | init => exact DiskLog.Tracked.load herror hnum
    | step _ hok hs ih => exact ih.step hok hs
  exact ⟨h.numbered, fun j hj hle => h.get_isSome hj hle, h.counted.trans h.lastIndex_eq.symm⟩

/-- A `write` fails in the middle of a record, a truncation behind the end of the log fails, and a
truncation that drops an entry succeeds. -/
theorem log_contiguous_run_failures : ∃ l : DiskLog,
    l.entries = [⟨1, 1, .kSet, [97], [49]⟩, ⟨2, 2, .kSet, [99], [51]⟩] ∧
      l.wal.lastIndex = l.lastIndex := by
  obtain ⟨l, hr, hl⟩ : ∃ l : DiskLog, DiskLog.Run [] DiskLog.CountersFollow l ∧
      decide (l.entries = [⟨1, 1, .kSet, [97], [49]⟩, ⟨2, 2, .kSet, [99], [51]⟩]) = true :=
    exists_run
      [.append ⟨1, 0, .kSet, [97], [49]⟩ {},
        .append ⟨1, 0, .kSet, [98], [50]⟩ ⟨.failed 7 "ENOSPC", none⟩,
        .truncateFrom 2 { ftruncate := some "EIO" }, .append ⟨1, 0, .kSet, [98], [50]⟩ {},
        .truncateFrom 2 {}, .append ⟨2, 0, .kSet, [99], [51]⟩ {}]
      (by decide +kernel)
  have hnum : Numbered (scanWal []).frames := Numbered.nil
  exact ⟨l, of_decide_eq_true hl, (log_contiguous_run rfl hnum hr).2.2⟩

/-- **In general they do not**: `fsync` fails in an append, the writer's counter has moved and the
log in memory has not, and the next entry gets the index behind the one that is missing. -/
theorem failed_fsync_skips_index :
    ¬ ∀ l : DiskLog, DiskLog.Run [] DiskLog.OneProcess l →
      (∀ i e, l.entries[i]? = some e → e.index = i + 1) ∧
      (∀ j, 1 ≤ j → j ≤ l.lastIndex → (l.get j).isSome = true) ∧
      ∀ entry calls, (l.append entry calls).2.ok = false →
        (l.append entry calls).1.wal.lastIndex = (l.append entry calls).1.lastIndex := by
  intro hall
  obtain ⟨l, hr, hl⟩ : ∃ l : DiskLog, DiskLog.Run [] DiskLog.OneProcess l ∧
      decide (l.entries = [⟨1, 2, .kSet, [98], [50]⟩]) = true :=
    exists_run
      [.append ⟨1, 0, .kSet, [97], [49]⟩ ⟨.complete, some "EIO"⟩,
        .append ⟨1, 0, .kSet, [98], [50]⟩ {}]
      (by decide +kernel)
  have hindex := (hall l hr).1 0 ⟨1, 2, .kSet, [98], [50]⟩ (by rw [of_decide_eq_true hl]; rfl)
  exact absurd hindex (by decide)

/-! ## A crash inside `TruncateFrom` -/

/-- What of `RewriteAll` has reached the disk when the process dies: nothing yet, or the `ftruncate`
and the first `written` bytes of the entries that are kept. -/
inductive CrashPoint where
  | entered
  | rewriting (written : Nat)
  deriving DecidableEq, Repr

namespace DiskLog

variable {l : DiskLog}

/-- `wal.log` after a crash inside `TruncateFrom(fromIndex)`. -/
def crashFile (l : DiskLog) (fromIndex : Nat) : CrashPoint → Bytes
  | .entered => l.file
  | .rewriting written => (encodeAll encodeWalRecord (l.kept fromIndex)).take written

/-- The call itself passes through the files that a crash can leave: it leaves them behind when the
system call at that point fails. -/
theorem crashFile_of_failure (h : l.Usable) {fromIndex : Nat} (hfrom : fromIndex ≠ 0)
    (errno : String) (written : Nat) :
    (l.truncateFrom fromIndex { ftruncate := some errno }).1.file =
        l.crashFile fromIndex .entered ∧
      (l.truncateFrom fromIndex { write := .failed written errno }).1.file =
        l.crashFile fromIndex (.rewriting written) := by
  unfold truncateFrom WalWriter.rewriteAll crashFile
  rw [if_neg hfrom, if_neg hfrom, h.open_ok, if_neg (by decide), if_neg (by decide)]
  refine ⟨rfl, ?_⟩
  rcases writeRecords_cases (.failed written errno) (l.kept fromIndex) [] with
    ⟨hall, hwritten⟩ | ⟨w, e, houtcome, _, hwritten⟩
  · simp only [hwritten, List.nil_append]
    rw [List.take_of_length_le (hall _ _ rfl)]
  · cases houtcome
    simp only [hwritten, List.nil_append]

/-- The file can be read, and every entry below `fromIndex` is in it. -/
def KeepsBelow (l : DiskLog) (fromIndex : Nat) (file : Bytes) : Prop :=
  (scanWal file).error = none ∧ ∀ e ∈ l.entries, e.index < fromIndex → e ∈ (scanWal file).frames

/-- A file that starts with all of the kept entries has them, any shorter one has not. -/
theorem OnDisk.keepsBelow_iff {tail : Bytes} (h : l.OnDisk tail) (k written : Nat) :
    l.KeepsBelow (k + 1) ((encodeAll encodeWalRecord (l.entries.take k)).take written) ↔
      (encodeAll encodeWalRecord (l.entries.take k)).length ≤ written := by
  have hnum := h.tracked.numbered
  have hencodable : ∀ e ∈ l.entries.take k, e.Encodable := fun e he =>
    h.encodable e (List.mem_of_mem_take he)
  obtain ⟨j, hj, hinside, u, hscan, _⟩ :=
    scanWal_cut hencodable (List.take_prefix written (encodeAll encodeWalRecord (l.entries.take k)))
  unfold KeepsBelow
  rw [hscan]
  constructor
  · rintro ⟨_, hall⟩
    by_contra hshort
    -- the first entry that is not wholly inside is missing
    have hlt : j < (l.entries.take k).length := by
      by_contra hge
      have hwhole := (hinside _ (Nat.le_refl _)).mp (Nat.le_of_not_lt hge)
      rw [List.take_length, List.length_take] at hwhole
      omega
    have hjlen : j < l.entries.length := by
      rw [List.length_take] at hlt
      omega
    have hget := List.getElem?_eq_getElem hjlen
    have hindex := hnum j _ hget
    have hmem := hall _ (List.getElem_mem hjlen) (by rw [List.length_take] at hlt; omega)
    obtain ⟨i, hi⟩ := List.getElem?_of_mem hmem
    have hij := (List.getElem?_eq_some_iff.mp hi).1
    have hindex' := (hnum.of_isPrefix
      ((List.take_prefix j _).trans (List.take_prefix k l.entries))) i _ hi
    rw [List.length_take] at hij
    omega
  · intro hlen
    have hall : (l.entries.take k).take j = l.entries.take k := by
      refine List.take_of_length_le ((hinside _ (Nat.le_refl _)).mpr ?_)
      rw [List.take_length, List.take_of_length_le hlen]
    rw [hall]
    refine ⟨rfl, ?_⟩
    intro e he hlt
    obtain ⟨i, hi⟩ := List.getElem?_of_mem he
    have hindex := hnum i e hi
    refine List.mem_of_getElem? (i := i) ?_
    rw [List.getElem?_take_of_lt (by omega)]
    exact hi

end DiskLog

/-- **A crash inside `TruncateFrom` loses no entry below the conflict exactly if** it comes before
the `ftruncate`, or when every byte of those entries is written again.  The file may end in a torn
record. -/
theorem truncation_crash_safe_iff {l : DiskLog} {tail : Bytes} (h : l.OnDisk tail)
    {fromIndex : Nat} (hfrom : 1 ≤ fromIndex) (point : CrashPoint) :
    l.KeepsBelow fromIndex (l.crashFile fromIndex point) ↔
      ∀ written, point = .rewriting written →
        (encodeAll encodeWalRecord (l.entries.take (fromIndex - 1))).length ≤ written := by
  obtain ⟨k, rfl⟩ : ∃ k, fromIndex = k + 1 := ⟨fromIndex - 1, by omega⟩
  cases point with
  | entered =>
    simp only [DiskLog.KeepsBelow, DiskLog.crashFile, h.read]
    exact ⟨fun _ written hw => (by cases hw), fun _ => ⟨trivial, fun e he _ => he⟩⟩
  | rewriting written =>
    rw [DiskLog.crashFile, DiskLog.kept_eq_take h.tracked.numbered, Nat.add_sub_cancel,
      h.keepsBelow_iff k written]
    exact ⟨fun hlen w hw => (by cases hw; exact hlen), fun hall => hall written rfl⟩

theorem exists_two_entries : ∃ l : DiskLog, l.InSync ∧
    l.entries = [⟨1, 1, .kSet, [97], [49]⟩, ⟨1, 2, .kSet, [98], [50]⟩] := by
  obtain ⟨l, hr, hl⟩ : ∃ l : DiskLog, DiskLog.Run [] DiskLog.Succeeds l ∧
      decide (l.entries = [⟨1, 1, .kSet, [97], [49]⟩, ⟨1, 2, .kSet, [98], [50]⟩]) = true :=
    exists_run
      [.append ⟨1, 0, .kSet, [97], [49]⟩ {}, .append ⟨1, 0, .kSet, [98], [50]⟩ {}]
      (by decide +kernel)
  exact ⟨l, DiskLog.run_inSync hr, of_decide_eq_true hl⟩

/-- All 31 bytes of the first entry are written again. -/
theorem truncation_crash_safe_rewritten : ∃ l : DiskLog,
    l.entries = [⟨1, 1, .kSet, [97], [49]⟩, ⟨1, 2, .kSet, [98], [50]⟩] ∧
      l.KeepsBelow 2 (l.crashFile 2 (.rewriting 31)) := by
  obtain ⟨l, hl, hentries⟩ := exists_two_entries
  refine ⟨l, hentries, (truncation_crash_safe_iff hl.onDisk (by decide) _).mpr ?_⟩
  intro written hw
  cases hw
  rw [hentries]
  decide +kernel

/-- **In general it does lose them**: the process dies right after the `ftruncate`, and the first
entry is gone although only the second one was in conflict. -/
theorem truncation_loses_acknowledged :
    ¬ ∀ (l : DiskLog) (fromIndex : Nat) (point : CrashPoint), l.InSync → 1 ≤ fromIndex →
      l.KeepsBelow fromIndex (l.crashFile fromIndex point) := by
  intro hall
  obtain ⟨l, hl, hentries⟩ := exists_two_entries
  have hkeeps := (hall l 2 (.rewriting 0) hl (by decide)).2 ⟨1, 1, .kSet, [97], [49]⟩
    (by rw [hentries]; exact List.mem_cons_self) (by decide)
  cases hkeeps

end NeuralKV
