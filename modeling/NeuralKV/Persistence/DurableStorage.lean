import NeuralKV.Lib.Runs
import NeuralKV.Persistence.WalCodec

/-!
# Single-node durable storage

Model of `src/persistence/wal_writer.cpp`, `recovery.cpp` and `durable_storage.cpp` at the level
of the bytes of `wal.log`.

* `WalWriter` — `OpenOrCreate`, `Append` and the lock scopes of `Sync`: entering it
  (`syncEnter`), waking up as a waiter (`syncWake`) and the flush of the batch leader
  (`syncFlush`).  The batching loop between entering and flushing changes nothing; how long it
  takes is left open.
* `DurableStorage` — `Open` and the apply step behind the barrier.
* `Machine` — the file, the process and its calls in progress.  A `Set` or `Delete` is a thread
  that passes through `Append`, `Sync` and the apply step; any other call may run in between.
  `write` may fail after part of a record, `fsync` may fail, and a crash leaves every byte that
  was fsync'd and any part of what was written after that.
-/

set_option autoImplicit false

namespace NeuralKV

open Framing
open Runs (putThread)

/-- Index of the last record, `0` if there is none. -/
def lastIndexOf (records : List WalRecord) : Nat := (records.getLast?.map (·.index)).getD 0

/-! ## WalWriter -/

/-- The fields of `WalWriter` that `Append` and `Sync` read. -/
structure WalWriter where
  lastIndex : Nat := 0
  syncedIndex : Nat := 0
  flushInProgress : Bool := false
  openStatus : Status := .Ok
  deriving DecidableEq, Repr

/-- What `write` makes of the bytes of one record. -/
inductive WriteOutcome where
  | complete
  | failed (written : Nat) (errno : String)
  deriving DecidableEq, Repr

/-- How a scope of `Sync` ends. -/
inductive SyncOutcome where
  | returned (status : Status)
  | waiting
  | leading
  deriving DecidableEq, Repr

namespace WalWriter

/-- `WalWriter::OpenOrCreate`. -/
def openOrCreate (file : Bytes) : WalWriter :=
  let found := scanWal file
  match found.error with
  | some status => { lastIndex := lastIndexOf found.frames, openStatus := status }
  | none => { lastIndex := lastIndexOf found.frames, syncedIndex := lastIndexOf found.frames }

/-- `WalWriter::Append`: the writer afterwards, the bytes that reached the file, and the record
with its index. -/
def append (wal : WalWriter) (record : WalRecord) (outcome : WriteOutcome) :
    WalWriter × Bytes × Except Status WalRecord :=
  if !wal.openStatus.ok then (wal, [], .error wal.openStatus)
  else
    let record := { record with index := wal.lastIndex + 1 }
    match outcome with
    | .failed written errno =>
      (wal, (encodeWalRecord record).take written, .error ⟨.kIOError, "write wal: " ++ errno⟩)
    | .complete => ({ wal with lastIndex := record.index }, encodeWalRecord record, .ok record)

/-- `WalWriter::Sync` up to the point where it waits, leads or returns. -/
def syncEnter (wal : WalWriter) (atLeastIndex : Nat) : WalWriter × SyncOutcome :=
  if !wal.openStatus.ok then (wal, .returned wal.openStatus)
  else if atLeastIndex ≤ wal.syncedIndex then (wal, .returned .Ok)
  else if wal.flushInProgress then (wal, .waiting)
  else ({ wal with flushInProgress := true }, .leading)

/-- A waiter wakes up; `none` while its predicate is false. -/
def syncWake (wal : WalWriter) (atLeastIndex : Nat) : Option (WalWriter × SyncOutcome) :=
  if atLeastIndex ≤ wal.syncedIndex then some (wal, .returned .Ok)
  else if wal.flushInProgress then none
  else some ({ wal with flushInProgress := true }, .leading)

/-- The batch leader flushes and returns; `errno` is set when `fsync` fails.  After a flush that
succeeded both branches of the last `return` give `Ok`. -/
def syncFlush (wal : WalWriter) (errno : Option String) : WalWriter × SyncOutcome :=
  match errno with
  | none =>
    ({ wal with syncedIndex := wal.lastIndex, flushInProgress := false }, .returned .Ok)
  | some errno =>
    ({ wal with flushInProgress := false }, .returned ⟨.kIOError, "fsync wal: " ++ errno⟩)

end WalWriter

/-! ## DurableStorage -/

structure DurableStorage where
  wal : WalWriter
  kv : ShardedKV
  lastAppliedIndex : Nat

/-- `RecoverFromWal` into an empty store. -/
def recoverFromWal (hash : Bytes → Nat) (file : Bytes) : Status × ShardedKV × Nat :=
  let found := scanWal file
  (found.error.getD .Ok, replay (ShardedKV.empty hash) found.frames, lastIndexOf found.frames)

/-- The record `Set` appends. -/
def setRecord (key value : Bytes) : Except Status WalRecord :=
  if key = [] then .error ShardedKV.emptyKey
  else if value = [] then .error ⟨.kInvalidArgument, "SET requires a non-empty value"⟩
  else .ok { op := .kSet, key, value }

/-- The record `Delete` appends. -/
def deleteRecord (key : Bytes) : Except Status WalRecord :=
  if key = [] then .error ShardedKV.emptyKey else .ok { op := .kDelete, key }

namespace DurableStorage

/-- `DurableStorage::Open`. -/
def Open (hash : Bytes → Nat) (file : Bytes) : Except Status DurableStorage :=
  let wal := WalWriter.openOrCreate file
  let (status, kv, lastAppliedIndex) := recoverFromWal hash file
  if status.ok then .ok { wal, kv, lastAppliedIndex } else .error status

/-- The last part of `Set` and `Delete`, behind the barrier; `none` while an earlier record is
not applied. -/
def apply (s : DurableStorage) (record : WalRecord) : Option DurableStorage :=
  if s.lastAppliedIndex = record.index - 1 then
    some { s with kv := applyRecord s.kv record, lastAppliedIndex := record.index }
  else none

end DurableStorage

/-! ## The machine -/

/-- Program points of `Set` and `Delete`. -/
inductive CallStage where
  | append
  | sync
  | waiting
  | leading
  | apply
  deriving DecidableEq, Repr

/-- A call in progress; from `sync` on, `record` carries its index. -/
structure Call where
  record : WalRecord
  stage : CallStage := .append
  deriving DecidableEq, Repr

/-- How a call goes on after a scope of `Sync`. -/
def Call.afterSync (c : Call) : SyncOutcome → Option Call
  | .returned status => if status.ok then some { c with stage := .apply } else none
  | .waiting => some { c with stage := .waiting }
  | .leading => some { c with stage := .leading }

structure Process where
  storage : DurableStorage
  calls : List Call := []

/-- Thread `k` has gone through a scope that changed the writer. -/
def Process.put (p : Process) (wal : WalWriter) (k : Nat) (next : Option Call) : Process where
  storage := { p.storage with wal := wal }
  calls := putThread p.calls k next

/-- `durable` is the number of bytes a successful `fsync` has covered.  `written` and `acked` are
history variables: the records `Append` has written, and those whose call has returned from the
apply step, in any incarnation of the process. -/
structure Machine where
  file : Bytes := []
  durable : Nat := 0
  process : Option Process := none
  written : List WalRecord := []
  acked : List WalRecord := []

/-- File offsets are signed 64-bit numbers: no `write` gets beyond this size. -/
def maxFileSize : Nat := 2 ^ 63 - 1

inductive StorageAction where
  | openStorage
  | crash (kept : Nat)
  | set (key value : Bytes)
  | delete (key : Bytes)
  | append (thread : Nat) (outcome : WriteOutcome)
  | sync (thread : Nat)
  | flush (thread : Nat) (errno : Option String)
  | apply (thread : Nat)
  deriving DecidableEq, Repr

namespace Machine

/-- A call begins, or returns at once with an error. -/
def call (s : Machine) (request : Except Status WalRecord) : Option Machine :=
  match s.process, request with
  | none, _ => none
  | some _, .error _ => some s
  | some p, .ok record =>
    some { s with process := some { p with calls := p.calls ++ [{ record }] } }

/-- Call `c`, thread `k` of process `p`, goes through `Append`. -/
def appendStep (s : Machine) (p : Process) (k : Nat) (c : Call) (outcome : WriteOutcome) :
    Option Machine :=
  let (wal, bytes, result) := p.storage.wal.append c.record outcome
  if maxFileSize < (s.file ++ bytes).length then none
  else
    match outcome, result with
    | .failed written _, _ =>
      if written < (encodeWalRecord { c.record with index := p.storage.wal.lastIndex + 1 }).length
      then some { s with file := s.file ++ bytes, process := some (p.put wal k none) }
      else none
    | .complete, .error _ => some { s with process := some (p.put wal k none) }
    | .complete, .ok record =>
      some
        { s with
          file := s.file ++ bytes
          process := some (p.put wal k (some { record, stage := .sync }))
          written := s.written ++ [record] }

/-- One step of the machine. -/
def step (hash : Bytes → Nat) (s : Machine) : StorageAction → Option Machine
  | .openStorage =>
    match s.process, DurableStorage.Open hash s.file with
    | some _, _ => none
    | none, .error _ => some s
    | none, .ok storage => some { s with process := some { storage } }
  | .crash kept =>
    if s.durable ≤ kept then some { s with file := s.file.take kept, process := none } else none
  | .set key value => s.call (setRecord key value)
  | .delete key => s.call (deleteRecord key)
  | .append k outcome =>
    match s.process with
    | none => none
    | some p =>
      match p.calls[k]? with
      | some ⟨record, .append⟩ => s.appendStep p k ⟨record, .append⟩ outcome
      | _ => none
  | .sync k =>
    match s.process with
    | none => none
    | some p =>
      match p.calls[k]? with
      | some ⟨record, .sync⟩ =>
        let (wal, out) := p.storage.wal.syncEnter record.index
        some { s with process := some (p.put wal k (Call.afterSync ⟨record, .sync⟩ out)) }
      | some ⟨record, .waiting⟩ =>
        match p.storage.wal.syncWake record.index with
        | none => none
        | some (wal, out) =>
          some { s with process := some (p.put wal k (Call.afterSync ⟨record, .waiting⟩ out)) }
      | _ => none
  | .flush k errno =>
    match s.process with
    | none => none
    | some p =>
      match p.calls[k]? with
      | some ⟨record, .leading⟩ =>
        let (wal, out) := p.storage.wal.syncFlush errno
        some
          { s with
            durable := if errno = none then s.file.length else s.durable
            process := some (p.put wal k (Call.afterSync ⟨record, .leading⟩ out)) }
      | _ => none
  | .apply k =>
    match s.process with
    | none => none
    | some p =>
      match p.calls[k]? with
      | some ⟨record, .apply⟩ =>
        match p.storage.apply record with
        | none => none
        | some storage =>
          some
            { s with
              process := some { storage, calls := putThread p.calls k none }
              acked := s.acked ++ [record] }
      | _ => none

/-- The states reached from an empty data directory by steps that all satisfy `ok`. -/
abbrev Run (hash : Bytes → Nat) (ok : Machine → StorageAction → Prop) : Machine → Prop :=
  Runs.Run (step hash) {} ok

end Machine

/-! ## Moves -/

/-- The record of the call that an action begins, or the error it returns at once. -/
def StorageAction.request : StorageAction → Option (Except Status WalRecord)
  | .set key value => some (setRecord key value)
  | .delete key => some (deleteRecord key)
  | _ => none

theorem StorageAction.request_ok {a : StorageAction} {record : WalRecord}
    (h : a.request = some (.ok record)) :
    (∃ key value, setRecord key value = .ok record) ∨ ∃ key, deleteRecord key = .ok record := by
  cases a with
  | set key value => exact Or.inl ⟨key, value, Option.some.inj h⟩
  | delete key => exact Or.inr ⟨key, Option.some.inj h⟩
  | _ => cases h

/-- What a step of the machine can be. -/
inductive StorageMove (hash : Bytes → Nat) (s : Machine) : StorageAction → Machine → Prop where
  | idle {a : StorageAction} : StorageMove hash s a s
  | opened {storage : DurableStorage} (hp : s.process = none)
      (hopen : DurableStorage.Open hash s.file = .ok storage) :
      StorageMove hash s .openStorage { s with process := some { storage } }
  | crash {kept : Nat} (hk : s.durable ≤ kept) :
      StorageMove hash s (.crash kept) { s with file := s.file.take kept, process := none }
  | called {a : StorageAction} {p : Process} {record : WalRecord} (hp : s.process = some p)
      (hreq : a.request = some (.ok record)) :
      StorageMove hash s a { s with process := some { p with calls := p.calls ++ [{ record }] } }
  | appended {k : Nat} {p : Process} {record : WalRecord} (hp : s.process = some p)
      (hc : p.calls[k]? = some ⟨record, .append⟩) (hopen : p.storage.wal.openStatus.ok = true)
      (hsize : (s.file ++ encodeWalRecord
        { record with index := p.storage.wal.lastIndex + 1 }).length ≤ maxFileSize) :
      StorageMove hash s (.append k .complete)
        { s with
          file := s.file ++ encodeWalRecord { record with index := p.storage.wal.lastIndex + 1 }
          process := some (p.put { p.storage.wal with lastIndex := p.storage.wal.lastIndex + 1 } k
            (some ⟨{ record with index := p.storage.wal.lastIndex + 1 }, .sync⟩))
          written := s.written ++ [{ record with index := p.storage.wal.lastIndex + 1 }] }
  | appendFailed {k written : Nat} {errno : String} {p : Process} {record : WalRecord}
      (hp : s.process = some p) (hc : p.calls[k]? = some ⟨record, .append⟩)
      (hwritten : written <
        (encodeWalRecord { record with index := p.storage.wal.lastIndex + 1 }).length)
      (hopen : p.storage.wal.openStatus.ok = true)
      (hsize : (s.file ++ (encodeWalRecord
        { record with index := p.storage.wal.lastIndex + 1 }).take written).length ≤ maxFileSize) :
      StorageMove hash s (.append k (.failed written errno))
        { s with
          file := s.file ++ (encodeWalRecord
            { record with index := p.storage.wal.lastIndex + 1 }).take written
          process := some (p.put p.storage.wal k none) }
  | refused {a : StorageAction} {k : Nat} {p : Process} {c : Call} (hp : s.process = some p)
      (hc : p.calls[k]? = some c) (hopen : p.storage.wal.openStatus.ok = false) :
      StorageMove hash s a { s with process := some (p.put p.storage.wal k none) }
  | covered {k : Nat} {p : Process} {c : Call} (hp : s.process = some p)
      (hc : p.calls[k]? = some c) (hstage : c.stage = .sync ∨ c.stage = .waiting)
      (hle : c.record.index ≤ p.storage.wal.syncedIndex) :
      StorageMove hash s (.sync k)
        { s with process := some (p.put p.storage.wal k (some { c with stage := .apply })) }
  | waits {k : Nat} {p : Process} {record : WalRecord} (hp : s.process = some p)
      (hc : p.calls[k]? = some ⟨record, .sync⟩) (hlt : p.storage.wal.syncedIndex < record.index)
      (hflush : p.storage.wal.flushInProgress = true) :
      StorageMove hash s (.sync k)
        { s with process := some (p.put p.storage.wal k (some ⟨record, .waiting⟩)) }
  | leads {k : Nat} {p : Process} {c : Call} (hp : s.process = some p)
      (hc : p.calls[k]? = some c) (hstage : c.stage = .sync ∨ c.stage = .waiting)
      (hlt : p.storage.wal.syncedIndex < c.record.index)
      (hflush : p.storage.wal.flushInProgress = false) :
      StorageMove hash s (.sync k)
        { s with
          process := some (p.put { p.storage.wal with flushInProgress := true } k
            (some { c with stage := .leading })) }
  | flushed {k : Nat} {p : Process} {record : WalRecord} (hp : s.process = some p)
      (hc : p.calls[k]? = some ⟨record, .leading⟩) :
      StorageMove hash s (.flush k none)
        { s with
          durable := s.file.length
          process := some (p.put
            { p.storage.wal with syncedIndex := p.storage.wal.lastIndex, flushInProgress := false }
            k (some ⟨record, .apply⟩)) }
  | flushFailed {k : Nat} {errno : String} {p : Process} {record : WalRecord}
      (hp : s.process = some p) (hc : p.calls[k]? = some ⟨record, .leading⟩) :
      StorageMove hash s (.flush k (some errno))
        { s with process := some (p.put { p.storage.wal with flushInProgress := false } k none) }
  | applied {k : Nat} {p : Process} {record : WalRecord} (hp : s.process = some p)
      (hc : p.calls[k]? = some ⟨record, .apply⟩)
      (hbarrier : p.storage.lastAppliedIndex = record.index - 1) :
      StorageMove hash s (.apply k)
        { s with
          process := some
            { storage :=
                { p.storage with
                  kv := applyRecord p.storage.kv record, lastAppliedIndex := record.index }
              calls := putThread p.calls k none }
          acked := s.acked ++ [record] }

section Inversion

variable {hash : Bytes → Nat} {s s' : Machine}

theorem call_move {a : StorageAction} {request : Except Status WalRecord}
    (hreq : a.request = some request) (h : s.call request = some s') :
    StorageMove hash s a s' := by
  unfold Machine.call at h
  split at h
  · cases h
  · cases h; exact .idle
  · rename_i p record hp
    cases h
    exact .called hp hreq

theorem appendStep_move {p : Process} {k : Nat} {record : WalRecord} {outcome : WriteOutcome}
    (hp : s.process = some p) (hc : p.calls[k]? = some ⟨record, .append⟩)
    (h : s.appendStep p k ⟨record, .append⟩ outcome = some s') :
    StorageMove hash s (.append k outcome) s' := by
  unfold Machine.appendStep WalWriter.append at h
  cases hopen : p.storage.wal.openStatus.ok with
  | false =>
    -- unreachable in a run: a process is only there when `Open` has succeeded
    simp only [hopen, Bool.not_false, if_true, List.append_nil] at h
    split at h
    · cases h
    · split at h
      · split at h
        · cases h; exact .refused hp hc hopen
        · cases h
      · cases h; exact .refused hp hc hopen
      · rename_i heq; cases heq
  | true =>
    simp only [hopen, Bool.not_true, Bool.false_eq_true, if_false] at h
    cases outcome with
    | complete =>
      simp only at h
      split at h
      · cases h
      · cases h
        exact .appended hp hc hopen (by omega)
    | failed written errno =>
      simp only at h
      split at h
      · cases h
      · split at h
        · cases h
          exact .appendFailed hp hc ‹_› hopen (by omega)
        · cases h

theorem syncEnter_move {p : Process} {k : Nat} {record : WalRecord} (hp : s.process = some p)
    (hc : p.calls[k]? = some ⟨record, .sync⟩) :
    StorageMove hash s (.sync k)
      { s with
        process := some (p.put (p.storage.wal.syncEnter record.index).1 k
          (Call.afterSync ⟨record, .sync⟩ (p.storage.wal.syncEnter record.index).2)) } := by
  unfold WalWriter.syncEnter
  split
  · rename_i hopen
    have hopen' : p.storage.wal.openStatus.ok = false := by simpa using hopen
    simp only [Call.afterSync, hopen', Bool.false_eq_true, if_false]
    exact .refused hp hc hopen'
  · split
    · exact .covered hp hc (Or.inl rfl) ‹_›
    · rename_i hlt
      split
      · exact .waits hp hc (Nat.lt_of_not_le hlt) ‹_›
      · rename_i hflush
        exact .leads hp hc (Or.inl rfl) (Nat.lt_of_not_le hlt) (by simpa using hflush)

theorem syncWake_move {p : Process} {k : Nat} {record : WalRecord} {wal : WalWriter}
    {out : SyncOutcome} (hp : s.process = some p) (hc : p.calls[k]? = some ⟨record, .waiting⟩)
    (h : p.storage.wal.syncWake record.index = some (wal, out)) :
    StorageMove hash s (.sync k)
      { s with process := some (p.put wal k (Call.afterSync ⟨record, .waiting⟩ out)) } := by
  unfold WalWriter.syncWake at h
  split at h
  · cases h
    exact .covered hp hc (Or.inr rfl) ‹_›
  · rename_i hlt
    split at h
    · cases h
    · rename_i hflush
      cases h
      exact .leads hp hc (Or.inr rfl) (Nat.lt_of_not_le hlt) (by simpa using hflush)

/-- **Every step is one of the moves.** -/
theorem storage_move {a : StorageAction} (h : s.step hash a = some s') :
    StorageMove hash s a s' := by
  cases a with
  | openStorage =>
    simp only [Machine.step] at h
    split at h
    · cases h
    · cases h; exact .idle
    · cases h; exact .opened ‹_› ‹_›
  | crash kept =>
    simp only [Machine.step] at h
    split at h
    · cases h; exact .crash ‹_›
    · cases h
  | set key value => exact call_move rfl h
  | delete key => exact call_move rfl h
  | append k outcome =>
    simp only [Machine.step] at h
    split at h
    · cases h
    · split at h
      · exact appendStep_move ‹_› ‹_› h
      · cases h
  | sync k =>
    simp only [Machine.step] at h
    split at h
    · cases h
    · split at h
      · cases h; exact syncEnter_move ‹_› ‹_›
      · split at h
        · cases h
        · cases h; exact syncWake_move ‹_› ‹_› ‹_›
      · cases h
  | flush k errno =>
    simp only [Machine.step] at h
    split at h
    · cases h
    · split at h
      · cases errno with
        | none => cases h; exact .flushed ‹_› ‹_›
        | some errno => cases h; exact .flushFailed ‹_› ‹_›
      · cases h
  | apply k =>
    simp only [Machine.step] at h
    split at h
    · cases h
    · split at h
      · unfold DurableStorage.apply at h
        split at h
        · cases h
        · rename_i happly
          split at happly
          · cases happly
            cases h
            exact .applied ‹_› ‹_› ‹_›
          · cases happly
      · cases h

end Inversion

end NeuralKV
