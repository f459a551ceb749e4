import NeuralKV.Lib.ConsensusInv
import NeuralKV.Lib.DurableHistory
import NeuralKV.Persistence.Durability
import NeuralKV.Storage.PlainMap

/-!
# One order of all operations, across crashes

What the clients of a `DurableStorage` see over any number of incarnations: concurrent `Set`,
`Delete` and `Get` calls, each with its answer, and crashes.

* `Service` — the machine of `NeuralKV.Persistence.DurableStorage` with `Get`, the answers of the
  calls and a history.
* `Books` — whose record each record of the file is, and the order in which the operations have
  taken effect: a write at its apply step, or when the next `Open` replays its record.
* `one_order_of_operations` — **durable linearizability**: as long as no crash takes back what the
  last `Open` found, one sequence of operations on one map explains all answers of all incarnations.
* `recovered_write_vanishes` — `OpenOrCreate` takes everything it finds for durable and does not
  `fsync` it, so without that assumption a value may be read and then be gone.
-/

set_option autoImplicit false

namespace NeuralKV

open DurableHistory Framing Objects
open Consensus (getElem?_of_isPrefix)
open Runs (exists_run putThread mem_putThread)

/-! ## The service -/

/-- The call that a record stands for. -/
def WalRecord.operation (r : WalRecord) : StoreOp :=
  match r.op with
  | .kSet => .set r.key r.value
  | .kDelete => .delete r.key

/-- `set_status` and `delete_status`: what the store says to a record that is applied. -/
def ShardedKV.statusOf (kv : ShardedKV) (r : WalRecord) : Status :=
  match r.op with
  | .kSet => (kv.set r.key r.value).1
  | .kDelete => (kv.delete r.key).1

/-- The error with which a scope of `Sync` ends the call. -/
def SyncOutcome.failure : SyncOutcome → Option Status
  | .returned status => if status.ok then none else some status
  | .waiting => none
  | .leading => none

/-- The call that returns in a step of a thread, and the status it returns. -/
def Process.returns (p : Process) : StorageAction → Option (Nat × Status)
  | .append k outcome =>
    match p.calls[k]? with
    | some ⟨record, .append⟩ =>
      match (p.storage.wal.append record outcome).2.2 with
      | .error status => some (k, status)
      | .ok _ => none
    | _ => none
  | .sync k =>
    match p.calls[k]? with
    | some ⟨record, .sync⟩ => (p.storage.wal.syncEnter record.index).2.failure.map (k, ·)
    | some ⟨record, .waiting⟩ =>
      ((p.storage.wal.syncWake record.index).bind (·.2.failure)).map (k, ·)
    | _ => none
  | .flush k errno =>
    match p.calls[k]? with
    | some ⟨_, .leading⟩ => (p.storage.wal.syncFlush errno).2.failure.map (k, ·)
    | _ => none
  | .apply k =>
    match p.calls[k]? with
    | some ⟨record, .apply⟩ => some (k, p.storage.kv.statusOf record)
    | _ => none
  | _ => none

/-- The machine and what its clients have seen.  `owners` has, for each call in progress, the number
of its operation, `found` the number of bytes that the last `Open` read. -/
structure Service where
  machine : Machine := {}
  owners : List Nat := []
  next : Nat := 0
  found : Nat := 0
  history : List (Observation StoreOp StoreAnswer) := []

inductive ServiceAction where
  | storage (a : StorageAction)
  | get (key : Bytes)
  deriving DecidableEq, Repr

namespace Service

/-- A `Set` or `Delete` is called; an error of its checks is returned at once. -/
def begins (s : Service) (machine : Machine) (op : StoreOp) : Except Status WalRecord → Service
  | .error status =>
    { s with
      machine := machine
      next := s.next + 1
      history := s.history ++ [.called s.next op] ++ [.returned s.next (.status status)] }
  | .ok _ =>
    { s with
      machine := machine
      owners := s.owners ++ [s.next]
      next := s.next + 1
      history := s.history ++ [.called s.next op] }

/-- Call `k` returns. -/
def ends (s : Service) (machine : Machine) (k : Nat) (status : Status) : Service :=
  match s.owners[k]? with
  | none => { s with machine := machine }
  | some id =>
    { s with
      machine := machine
      owners := s.owners.eraseIdx k
      history := s.history ++ [.returned id (.status status)] }

/-- What is seen of a step after which the machine is `machine`. -/
def observe (s : Service) (machine : Machine) : StorageAction → Service
  | .openStorage => { s with machine := machine, found := s.machine.file.length }
  | .crash _ =>
    { s with machine := machine, owners := [], history := s.history ++ [.crashed] }
  | .set key value => s.begins machine (.set key value) (setRecord key value)
  | .delete key => s.begins machine (.delete key) (deleteRecord key)
  | a =>
    match s.machine.process.bind (·.returns a) with
    | none => { s with machine := machine }
    | some (k, status) => s.ends machine k status

/-- One step.  `DurableStorage::Get` holds one shard lock from its lookup to its end. -/
def step (hash : Bytes → Nat) (s : Service) : ServiceAction → Option Service
  | .storage a => (s.machine.step hash a).map (s.observe · a)
  | .get key =>
    s.machine.process.map fun p =>
      { s with
        next := s.next + 1
        history := s.history ++ [.called s.next (.get key)] ++
          [.returned s.next (.value (p.storage.kv.get key))] }

/-- The states reached from an empty data directory by steps that all satisfy `ok`. -/
abbrev Run (hash : Bytes → Nat) (ok : Service → ServiceAction → Prop) : Service → Prop :=
  Runs.Run (step hash) {} ok

end Service

/-! ## Moves -/

/-- The operation that an action calls, and what its checks make of it. -/
def StorageAction.operation : StorageAction → Option (StoreOp × Except Status WalRecord)
  | .set key value => some (.set key value, setRecord key value)
  | .delete key => some (.delete key, deleteRecord key)
  | _ => none

/-- What a step of the service can be. -/
inductive ServiceMove (hash : Bytes → Nat) (s : Service) : ServiceAction → Service → Prop where
  | failedOpen {status : Status} (hopen : DurableStorage.Open hash s.machine.file = .error status) :
      ServiceMove hash s (.storage .openStorage) { s with found := s.machine.file.length }
  | opened {storage : DurableStorage} (hp : s.machine.process = none)
      (hopen : DurableStorage.Open hash s.machine.file = .ok storage) :
      ServiceMove hash s (.storage .openStorage)
        { s with
          machine := { s.machine with process := some { storage } }
          found := s.machine.file.length }
  | crash {kept : Nat} (hk : s.machine.durable ≤ kept) :
      ServiceMove hash s (.storage (.crash kept))
        { s with
          machine := { s.machine with file := s.machine.file.take kept, process := none }
          owners := []
          history := s.history ++ [.crashed] }
  | rejected {a : StorageAction} {op : StoreOp} {status : Status} {p : Process}
      (hp : s.machine.process = some p) (ha : a.operation = some (op, .error status)) :
      ServiceMove hash s (.storage a)
        { s with
          next := s.next + 1
          history := s.history ++ [.called s.next op] ++ [.returned s.next (.status status)] }
  | called {a : StorageAction} {op : StoreOp} {record : WalRecord} {p : Process}
      (hp : s.machine.process = some p) (ha : a.operation = some (op, .ok record)) :
      ServiceMove hash s (.storage a)
        { s with
          machine :=
            { s.machine with process := some { p with calls := p.calls ++ [{ record }] } }
          owners := s.owners ++ [s.next]
          next := s.next + 1
          history := s.history ++ [.called s.next op] }
  | read {key : Bytes} {p : Process} (hp : s.machine.process = some p) :
      ServiceMove hash s (.get key)
        { s with
          next := s.next + 1
          history := s.history ++ [.called s.next (.get key)] ++
            [.returned s.next (.value (p.storage.kv.get key))] }
  | appended {k : Nat} {p : Process} {record : WalRecord} (hp : s.machine.process = some p)
      (hc : p.calls[k]? = some ⟨record, .append⟩)
      (hsize : (s.machine.file ++ encodeWalRecord
        { record with index := p.storage.wal.lastIndex + 1 }).length ≤ maxFileSize) :
      ServiceMove hash s (.storage (.append k .complete))
        { s with
          machine :=
            { s.machine with
              file := s.machine.file ++
                encodeWalRecord { record with index := p.storage.wal.lastIndex + 1 }
              process := some (p.put
                { p.storage.wal with lastIndex := p.storage.wal.lastIndex + 1 } k
                (some ⟨{ record with index := p.storage.wal.lastIndex + 1 }, .sync⟩))
              written := s.machine.written ++
                [{ record with index := p.storage.wal.lastIndex + 1 }] } }
  | appendFailed {k written : Nat} {errno : String} {p : Process} {record : WalRecord}
      (hp : s.machine.process = some p) (hc : p.calls[k]? = some ⟨record, .append⟩)
      (hwritten : written <
        (encodeWalRecord { record with index := p.storage.wal.lastIndex + 1 }).length)
      (hsize : (s.machine.file ++ (encodeWalRecord
        { record with index := p.storage.wal.lastIndex + 1 }).take written).length ≤ maxFileSize) :
      ServiceMove hash s (.storage (.append k (.failed written errno)))
        (s.ends
          { s.machine with
            file := s.machine.file ++ (encodeWalRecord
              { record with index := p.storage.wal.lastIndex + 1 }).take written
            process := some (p.put p.storage.wal k none) }
          k ⟨.kIOError, "write wal: " ++ errno⟩)
  | synced {k : Nat} {p : Process} {c : Call} (stage : CallStage) (wal : WalWriter)
      (hp : s.machine.process = some p) (hc : p.calls[k]? = some c) (hold : c.stage ≠ .append)
      (hnew : stage ≠ .append)
      (happly : stage = .apply → c.record.index ≤ p.storage.wal.syncedIndex)
      (hopen : wal.openStatus = p.storage.wal.openStatus)
      (hlast : wal.lastIndex = p.storage.wal.lastIndex)
      (hsynced : wal.syncedIndex = p.storage.wal.syncedIndex) :
      ServiceMove hash s (.storage (.sync k))
        { s with
          machine :=
            { s.machine with process := some (p.put wal k (some { c with stage := stage })) } }
  | flushed {k : Nat} {p : Process} {record : WalRecord} (hp : s.machine.process = some p)
      (hc : p.calls[k]? = some ⟨record, .leading⟩) :
      ServiceMove hash s (.storage (.flush k none))
        { s with
          machine :=
            { s.machine with
              durable := s.machine.file.length
              process := some (p.put
                { p.storage.wal with
                  syncedIndex := p.storage.wal.lastIndex, flushInProgress := false }
                k (some ⟨record, .apply⟩)) } }
  | flushFailed {k : Nat} {errno : String} {p : Process} {record : WalRecord}
      (hp : s.machine.process = some p) (hc : p.calls[k]? = some ⟨record, .leading⟩) :
      ServiceMove hash s (.storage (.flush k (some errno)))
        (s.ends
          { s.machine with
            process := some (p.put { p.storage.wal with flushInProgress := false } k none) }
          k ⟨.kIOError, "fsync wal: " ++ errno⟩)
  | applied {k : Nat} {p : Process} {record : WalRecord} (hp : s.machine.process = some p)
      (hc : p.calls[k]? = some ⟨record, .apply⟩)
      (hbarrier : p.storage.lastAppliedIndex = record.index - 1) :
      ServiceMove hash s (.storage (.apply k))
        (s.ends
          { s.machine with
            process := some
              { storage :=
                  { p.storage with
                    kv := applyRecord p.storage.kv record, lastAppliedIndex := record.index }
                calls := putThread p.calls k none }
            acked := s.machine.acked ++ [record] }
          k (p.storage.kv.statusOf record))

section Inversion

variable {hash : Bytes → Nat} {s s' : Service}

theorem begins_move {a : StorageAction} {op : StoreOp} {request : Except Status WalRecord}
    {machine : Machine} (ha : a.operation = some (op, request))
    (h : s.machine.call request = some machine) :
    ServiceMove hash s (.storage a) (s.begins machine op request) := by
  unfold Machine.call at h
  split at h
  · cases h
  · rename_i p status hp
    cases h
    exact .rejected hp ha
  · rename_i p record hp
    cases h
    exact .called hp ha

theorem append_returns {p : Process} {k : Nat} {record : WalRecord} {outcome : WriteOutcome}
    {machine : Machine} (hp : s.machine.process = some p)
    (hc : p.calls[k]? = some ⟨record, .append⟩) (hopen : p.storage.wal.openStatus.ok = true)
    (h : s.machine.appendStep p k ⟨record, .append⟩ outcome = some machine) :
    ServiceMove hash s (.storage (.append k outcome)) (s.observe machine (.append k outcome)) := by
  simp only [Machine.appendStep, WalWriter.append, hopen, Bool.not_true, Bool.false_eq_true,
    if_false] at h
  simp only [Service.observe, hp, Option.bind_some, Process.returns, hc, WalWriter.append, hopen,
    Bool.not_true, Bool.false_eq_true, if_false]
  cases outcome with
  | complete =>
    simp only [Option.ite_none_left_eq_some, Nat.not_lt, Option.some.injEq] at h
    obtain ⟨hsize, rfl⟩ := h
    exact .appended hp hc hsize
  | failed written errno =>
    simp only [Option.ite_none_left_eq_some, Option.ite_none_right_eq_some, Nat.not_lt,
      Option.some.injEq] at h
    obtain ⟨hsize, hwritten, rfl⟩ := h
    exact .appendFailed hp hc hwritten hsize

theorem syncEnter_returns {p : Process} {k : Nat} {record : WalRecord}
    (hp : s.machine.process = some p) (hc : p.calls[k]? = some ⟨record, .sync⟩)
    (hopen : p.storage.wal.openStatus.ok = true) :
    ServiceMove hash s (.storage (.sync k))
      (s.observe
        { s.machine with
          process := some (p.put (p.storage.wal.syncEnter record.index).1 k
            (Call.afterSync ⟨record, .sync⟩ (p.storage.wal.syncEnter record.index).2)) }
        (.sync k)) := by
  simp only [Service.observe, hp, Option.bind_some, Process.returns, hc, WalWriter.syncEnter, hopen,
    Bool.not_true, Bool.false_eq_true, if_false]
  by_cases hle : record.index ≤ p.storage.wal.syncedIndex
  · rw [if_pos hle]
    exact .synced .apply p.storage.wal hp hc nofun nofun (fun _ => hle) rfl rfl rfl
  · rw [if_neg hle]
    by_cases hflush : p.storage.wal.flushInProgress = true
    · rw [if_pos hflush]
      exact .synced .waiting p.storage.wal hp hc nofun nofun nofun rfl rfl rfl
    · rw [if_neg hflush]
      exact .synced .leading _ hp hc nofun nofun nofun rfl rfl rfl

theorem syncWake_returns {p : Process} {k : Nat} {record : WalRecord} {wal : WalWriter}
    {out : SyncOutcome} (hp : s.machine.process = some p)
    (hc : p.calls[k]? = some ⟨record, .waiting⟩)
    (h : p.storage.wal.syncWake record.index = some (wal, out)) :
    ServiceMove hash s (.storage (.sync k))
      (s.observe
        { s.machine with
          process := some (p.put wal k (Call.afterSync ⟨record, .waiting⟩ out)) }
        (.sync k)) := by
  simp only [Service.observe, hp, Option.bind_some, Process.returns, hc, h]
  unfold WalWriter.syncWake at h
  split at h
  · rename_i hle
    cases h
    exact .synced .apply p.storage.wal hp hc nofun nofun (fun _ => hle) rfl rfl rfl
  · split at h
    · cases h
    · cases h
      exact .synced .leading _ hp hc nofun nofun nofun rfl rfl rfl

/-- **Every step is one of the moves**, in a process whose log could be opened. -/
theorem service_move (hopen : ∀ p, s.machine.process = some p → p.storage.wal.openStatus.ok = true)
    {a : ServiceAction} (h : s.step hash a = some s') : ServiceMove hash s a s' := by
  cases a with
  | get key =>
    obtain ⟨p, hp, rfl⟩ := Option.map_eq_some_iff.mp h
    exact .read hp
  | storage a =>
    obtain ⟨machine, hm, rfl⟩ := Option.map_eq_some_iff.mp h
    cases a with
    | openStorage =>
      simp only [Machine.step] at hm
      split at hm
      · cases hm
      · cases hm
        exact .failedOpen ‹_›
      · cases hm
        exact .opened ‹_› ‹_›
    | crash kept =>
      simp only [Machine.step, Option.ite_none_right_eq_some, Option.some.injEq] at hm
      obtain ⟨hk, rfl⟩ := hm
      exact .crash hk
    | set key value => exact begins_move rfl hm
    | delete key => exact begins_move rfl hm
    | append k outcome =>
      simp only [Machine.step] at hm
      split at hm
      · cases hm
      · split at hm
        · exact append_returns ‹_› ‹_› (hopen _ ‹_›) hm
        · cases hm
    | sync k =>
      simp only [Machine.step] at hm
      split at hm
      · cases hm
      · split at hm
        · cases hm
          exact syncEnter_returns ‹_› ‹_› (hopen _ ‹_›)
        · split at hm
          · cases hm
          · cases hm
            exact syncWake_returns ‹_› ‹_› ‹_›
        · cases hm
    | flush k errno =>
      simp only [Machine.step] at hm
      split at hm
      · cases hm
      · rename_i p hp
        split at hm
        · rename_i record hc
          cases hm
          simp only [Service.observe, hp, Option.bind_some, Process.returns, hc]
          cases errno with
          | none => exact .flushed hp hc
          | some errno => exact .flushFailed hp hc
        · cases hm
    | apply k =>
      simp only [Machine.step] at hm
      split at hm
      · cases hm
      · rename_i p hp
        split at hm
        · rename_i record hc
          simp only [DurableStorage.apply] at hm
          split at hm
          · cases hm
          · rename_i happly
            simp only [Option.ite_none_right_eq_some, Option.some.injEq] at happly
            obtain ⟨hbarrier, rfl⟩ := happly
            cases hm
            simp only [Service.observe, hp, Option.bind_some, Process.returns, hc]
            exact .applied hp hc hbarrier
        · cases hm

end Inversion

/-! ## What the operations are to do -/

/-- One operation on the map; unlike that of the store, `Set` refuses an empty value. -/
def PlainMap.serve (m : PlainMap) : StoreOp → StoreAnswer × PlainMap
  | .set key value =>
    if key ≠ [] ∧ value = [] then
      (.status ⟨.kInvalidArgument, "SET requires a non-empty value"⟩, m)
    else m.apply (.set key value)
  | op => m.apply op

/-- The answer says whether the operation has taken effect; an I/O error leaves that open. -/
def StoreAnswer.settles : StoreAnswer → Prop
  | .status s => s.code ≠ .kIOError
  | .value _ => True

/-- An operation that its checks reject answers as the map does, and changes nothing. -/
theorem serve_rejected {a : StorageAction} {op : StoreOp} {status : Status}
    (ha : a.operation = some (op, .error status)) (m : PlainMap) :
    m.serve op = (.status status, m) := by
  cases a with
  | set key value =>
    simp only [StorageAction.operation, setRecord, Option.some.injEq, Prod.mk.injEq] at ha
    obtain ⟨rfl, hcheck⟩ := ha
    by_cases hkey : key = []
    · rw [if_pos hkey] at hcheck
      cases hcheck
      simp [PlainMap.serve, PlainMap.apply, PlainMap.set, hkey]
    · rw [if_neg hkey] at hcheck
      by_cases hvalue : value = []
      · rw [if_pos hvalue] at hcheck
        cases hcheck
        exact if_pos ⟨hkey, hvalue⟩
      · rw [if_neg hvalue] at hcheck
        cases hcheck
  | delete key =>
    simp only [StorageAction.operation, deleteRecord, Option.some.injEq, Prod.mk.injEq] at ha
    obtain ⟨rfl, hcheck⟩ := ha
    by_cases hkey : key = []
    · rw [if_pos hkey] at hcheck
      cases hcheck
      simp [PlainMap.serve, PlainMap.apply, PlainMap.delete, hkey]
    · rw [if_neg hkey] at hcheck
      cases hcheck
  | _ => cases ha

theorem operation_of_called {a : StorageAction} {op : StoreOp} {record : WalRecord}
    (ha : a.operation = some (op, .ok record)) :
    record.operation = op ∧ a.request = some (.ok record) := by
  cases a with
  | set key value =>
    simp only [StorageAction.operation, Option.some.injEq, Prod.mk.injEq] at ha
    obtain ⟨rfl, hcheck⟩ := ha
    refine ⟨?_, congrArg some hcheck⟩
    unfold setRecord at hcheck
    split at hcheck
    · cases hcheck
    · split at hcheck
      · cases hcheck
      · cases hcheck
        rfl
  | delete key =>
    simp only [StorageAction.operation, Option.some.injEq, Prod.mk.injEq] at ha
    obtain ⟨rfl, hcheck⟩ := ha
    refine ⟨?_, congrArg some hcheck⟩
    unfold deleteRecord at hcheck
    split at hcheck
    · cases hcheck
    · cases hcheck
      rfl
  | _ => cases ha

theorem serve_set {key value : Bytes} (hvalue : value ≠ []) (m : PlainMap) :
    m.serve (.set key value) = m.apply (.set key value) := if_neg fun hempty => hvalue hempty.2

/-- **Applying a record is the operation it stands for**, with the status as its answer. -/
theorem ShardedKV.Holds.serve {kv : ShardedKV} {m : PlainMap} (h : kv.Holds m) {r : WalRecord}
    (hr : r.readable = true) :
    (m.serve r.operation).1 = .status (kv.statusOf r) ∧
      (applyRecord kv r).Holds (m.serve r.operation).2 := by
  simp only [WalRecord.readable, Bool.and_eq_true, decide_eq_true_eq] at hr
  obtain ⟨⟨-, hkey⟩, hvalue⟩ := hr
  unfold WalRecord.operation ShardedKV.statusOf applyRecord
  cases hop : r.op with
  | kSet =>
    rw [serve_set (hvalue hop)]
    exact ⟨congrArg StoreAnswer.status (h.set r.key r.value).1.symm, (h.set r.key r.value).2⟩
  | kDelete =>
    exact ⟨congrArg StoreAnswer.status (h.delete r.key).1.symm, (h.delete r.key).2⟩

/-! ## The books -/

/-- The records `rs` of the file belong to the operations `authors`.  The first `applied` of them
have taken effect; `order` has them, the reads and the rejected operations. -/
structure Books (hash : Bytes → Nat) (up : Bool) (h : List (Observation StoreOp StoreAnswer))
    (rs : List WalRecord) (authors : List Nat) (applied : Nat)
    (order : List (Placement StoreOp StoreAnswer)) : Prop where
  explained : Serializes PlainMap.serve PlainMap.empty StoreAnswer.settles h order
  store : (replay (ShardedKV.empty hash) (rs.take applied)).Holds
    (stateAfter PlainMap.serve PlainMap.empty order)
  applied_le : applied ≤ rs.length
  length : authors.length = rs.length
  distinct : authors.Nodup
  called : ∀ (i id : Nat) (r : WalRecord), authors[i]? = some id → rs[i]? = some r →
    .called id r.operation ∈ h
  waiting : ∀ (i id : Nat), applied ≤ i → authors[i]? = some id →
    Unsettled StoreAnswer.settles up h order id

namespace Books

variable {hash : Bytes → Nat} {up : Bool} {h : List (Observation StoreOp StoreAnswer)}
  {rs : List WalRecord} {authors : List Nat} {applied : Nat}
  {order : List (Placement StoreOp StoreAnswer)}

theorem empty : Books hash false [] [] [] 0 [] where
  explained := .nil
  store := ShardedKV.holds_empty hash
  applied_le := Nat.le_refl 0
  length := rfl
  distinct := List.nodup_nil
  called i id r hid := by simp at hid
  waiting i id _ hid := by simp at hid

/-- Something happens that is no crash. -/
theorem event (B : Books hash true h rs authors applied order) {e : Observation StoreOp StoreAnswer}
    (hcrash : e ≠ .crashed) (hcall : ∀ id op, e = .called id op → id ∉ ids order)
    (hreturn : ∀ id ans, e = .returned id ans → ans.settles →
      ∃ x ∈ order, x.id = id ∧ x.ans = ans) :
    Books hash true (h ++ [e]) rs authors applied order := by
  refine
    { B with
      explained := B.explained.event hcall hreturn
      called := fun i id r hid hr => List.mem_append_left _ (B.called i id r hid hr)
      waiting := fun i id hi hid => (B.waiting i id hi hid).event hcrash hreturn }

/-- An operation that leaves the map alone is called, takes effect and returns. -/
theorem instant (B : Books hash true h rs authors applied order) {id : Nat} {op : StoreOp}
    {ans : StoreAnswer} (hfresh : ∀ op, .called id op ∉ h)
    (hserve : (stateAfter PlainMap.serve PlainMap.empty order).serve op =
      (ans, stateAfter PlainMap.serve PlainMap.empty order)) :
    Books hash true (h ++ [.called id op] ++ [.returned id ans]) rs authors applied
      (order ++ [⟨id, op, ans⟩]) := by
  have hnew := B.explained.not_mem_ids hfresh
  have B₁ : Books hash true (h ++ [.called id op]) rs authors applied order := by
    refine B.event nofun ?_ nofun
    rintro id' op' he
    cases he
    exact hnew
  have U := Unsettled.of_call B.explained hfresh op
  have B₂ : Books hash true (h ++ [.called id op]) rs authors applied
      (order ++ [⟨id, op, ans⟩]) := by
    refine
      { B₁ with
        explained := B₁.explained.effect (by simp) hnew U.last (congrArg Prod.fst hserve)
        store := ?_
        waiting := ?_ }
    · rw [stateAfter_concat, hserve]
      exact B.store
    · intro i id' hi hid'
      refine (B₁.waiting i id' hi hid').effect ?_
      rintro rfl
      -- the record of an operation that has just been called is not in the file
      have hlt : i < rs.length := by
        rw [← B.length]
        exact (List.getElem?_eq_some_iff.mp hid').1
      exact hfresh _ (B.called i id' rs[i] hid' (List.getElem?_eq_getElem hlt))
  refine B₂.event nofun nofun ?_
  rintro id' ans' he -
  cases he
  exact ⟨_, List.mem_append_right _ (List.mem_singleton_self _), rfl, rfl⟩

/-- A record is written. -/
theorem written (B : Books hash true h rs authors applied order) {id : Nat} {r : WalRecord}
    (hcalled : .called id r.operation ∈ h) (hnew : id ∉ authors)
    (U : Unsettled StoreAnswer.settles true h order id) :
    Books hash true h (rs ++ [r]) (authors ++ [id]) applied order := by
  have hlen := B.length
  refine
    { explained := B.explained
      store := ?_
      applied_le := ?_
      length := by simp [hlen]
      distinct := ?_
      called := ?_
      waiting := ?_ }
  · rw [List.take_append_of_le_length B.applied_le]
    exact B.store
  · rw [List.length_append]
    exact Nat.le_add_right_of_le B.applied_le
  · refine List.nodup_append.mpr ⟨B.distinct, List.nodup_singleton _, ?_⟩
    rintro a ha b hb rfl
    rw [List.mem_singleton.mp hb] at ha
    exact hnew ha
  · intro i id' r' hid' hr'
    by_cases hi : i < rs.length
    · rw [List.getElem?_append_left (by omega)] at hid'
      rw [List.getElem?_append_left hi] at hr'
      exact B.called i id' r' hid' hr'
    · rw [List.getElem?_append_right (by omega)] at hid' hr'
      rw [List.mem_singleton.mp (List.mem_of_getElem? hid'),
        List.mem_singleton.mp (List.mem_of_getElem? hr')]
      exact hcalled
  · intro i id' hi hid'
    by_cases hlt : i < authors.length
    · rw [List.getElem?_append_left hlt] at hid'
      exact B.waiting i id' hi hid'
    · rw [List.getElem?_append_right (by omega)] at hid'
      rw [List.mem_singleton.mp (List.mem_of_getElem? hid')]
      exact U

/-- The operations behind the first record that is not applied. -/
theorem distinct_at (B : Books hash up h rs authors applied order) {i j : Nat} {a b : Nat}
    (ha : authors[i]? = some a) (hb : authors[j]? = some b) (hne : i ≠ j) : a ≠ b := by
  rintro rfl
  obtain ⟨hi, hai⟩ := List.getElem?_eq_some_iff.mp ha
  obtain ⟨hj, hbj⟩ := List.getElem?_eq_some_iff.mp hb
  exact hne ((List.Nodup.getElem_inj_iff B.distinct).mp (hai.trans hbj.symm))

/-- **The next record is applied**: its operation takes effect, with the status of the store. -/
theorem takesEffect (B : Books hash up h rs authors applied order) {id : Nat} {r : WalRecord}
    (hid : authors[applied]? = some id) (hr : rs[applied]? = some r) (hread : r.readable = true) :
    Books hash up h rs authors (applied + 1)
      (order ++ [⟨id, r.operation, .status
        ((replay (ShardedKV.empty hash) (rs.take applied)).statusOf r)⟩]) := by
  have U := B.waiting applied id (Nat.le_refl _) hid
  obtain ⟨hans, hstore⟩ := B.store.serve hread
  refine
    { B with
      explained := B.explained.effect (B.called _ _ _ hid hr) U.new U.last hans
      store := ?_
      applied_le := (List.getElem?_eq_some_iff.mp hr).1
      waiting := ?_ }
  · have htake : rs.take (applied + 1) = rs.take applied ++ [r] := by
      rw [List.take_add_one, hr]
      rfl
    rw [stateAfter_concat, htake, replay_append]
    exact hstore
  · intro i id' hi hid'
    exact (B.waiting i id' (by omega) hid').effect (B.distinct_at hid' hid (by omega))

/-- **Recovery**: all records that are left take effect, in the order of the file. -/
theorem recovered (hread : ∀ r ∈ rs, r.readable = true) :
    ∀ (n : Nat) {applied : Nat} {order : List (Placement StoreOp StoreAnswer)},
      Books hash up h rs authors applied order → applied + n = rs.length →
      ∃ order', Books hash up h rs authors rs.length order'
  | 0, applied, order, B, hn => by
    obtain rfl : applied = rs.length := hn
    exact ⟨order, B⟩
  | n + 1, applied, order, B, hn => by
    have hlt : applied < rs.length := by omega
    have hid := List.getElem?_eq_getElem (B.length ▸ hlt : applied < authors.length)
    have hr := List.getElem?_eq_getElem hlt
    exact recovered hread n (B.takesEffect hid hr (hread _ (List.mem_of_getElem? hr))) (by omega)

/-- **A crash**: the records behind the cut are gone, none of them applied. -/
theorem crash (B : Books hash up h rs authors applied order) {j : Nat} (hj : applied ≤ j) :
    Books hash false (h ++ [.crashed]) (rs.take j) (authors.take j) applied order where
  explained := B.explained.event nofun nofun
  store := by
    rw [List.take_take, Nat.min_eq_left hj]
    exact B.store
  applied_le := by
    rw [List.length_take]
    exact Nat.le_min.mpr ⟨hj, B.applied_le⟩
  length := by rw [List.length_take, List.length_take, B.length]
  distinct := B.distinct.sublist (List.take_sublist j authors)
  called i id r hid hr := by
    have hmem := B.called i id r (getElem?_of_isPrefix (List.take_prefix _ _) hid)
      (getElem?_of_isPrefix (List.take_prefix _ _) hr)
    exact List.mem_append_left _ hmem
  waiting i id hi hid :=
    (B.waiting i id hi (getElem?_of_isPrefix (List.take_prefix _ _) hid)).crash

/-- Once everything is applied nothing is left from before. -/
theorem restart (B : Books hash up h rs authors rs.length order) :
    Books hash true h rs authors rs.length order := by
  refine { B with waiting := fun i id hi hid => ?_ }
  have hlt := (List.getElem?_eq_some_iff.mp hid).1
  have hlen := B.length
  omega

end Books

/-! ## The calls in progress -/

/-- Call `c` belongs to operation `id`. -/
structure Owns (h : List (Observation StoreOp StoreAnswer)) (authors : List Nat)
    (order : List (Placement StoreOp StoreAnswer)) (id : Nat) (c : Call) : Prop where
  called : .called id c.record.operation ∈ h
  unsettled : Unsettled StoreAnswer.settles true h order id
  unwritten : c.stage = .append → id ∉ authors
  written : c.stage ≠ .append → authors[c.record.index - 1]? = some id

/-- The process has applied the first `applied` records; its calls belong to `owners`. -/
structure InService (hash : Bytes → Nat) (h : List (Observation StoreOp StoreAnswer))
    (rs : List WalRecord) (authors : List Nat) (applied : Nat)
    (order : List (Placement StoreOp StoreAnswer)) (p : Process) (owners : List Nat) : Prop where
  barrier : p.storage.lastAppliedIndex = applied
  kv : p.storage.kv = replay (ShardedKV.empty hash) (rs.take applied)
  length : owners.length = p.calls.length
  distinct : owners.Nodup
  owner : ∀ (k id : Nat) (c : Call), owners[k]? = some id → p.calls[k]? = some c →
    Owns h authors order id c

section Calls

variable {hash : Bytes → Nat} {h : List (Observation StoreOp StoreAnswer)} {rs : List WalRecord}
  {authors owners : List Nat} {applied k id : Nat} {order : List (Placement StoreOp StoreAnswer)}
  {p : Process} {c : Call}

theorem Owns.event (O : Owns h authors order id c) {e : Observation StoreOp StoreAnswer}
    (hcrash : e ≠ .crashed)
    (hreturn : ∀ id ans, e = .returned id ans → ans.settles →
      ∃ x ∈ order, x.id = id ∧ x.ans = ans) :
    Owns (h ++ [e]) authors order id c :=
  ⟨List.mem_append_left _ O.called, O.unsettled.event hcrash hreturn, O.unwritten, O.written⟩

theorem Owns.effect (O : Owns h authors order id c) {x : Placement StoreOp StoreAnswer}
    (hne : id ≠ x.id) : Owns h authors (order ++ [x]) id c :=
  ⟨O.called, O.unsettled.effect hne, O.unwritten, O.written⟩

theorem Owns.author (O : Owns h authors order id c) {id' : Nat} (hne : id ≠ id') :
    Owns h (authors ++ [id']) order id c := by
  refine ⟨O.called, O.unsettled, fun hstage hmem => ?_, fun hstage => ?_⟩
  · rcases List.mem_append.mp hmem with hold | hnew
    · exact O.unwritten hstage hold
    · exact hne (List.mem_singleton.mp hnew)
  · have hid := O.written hstage
    rw [List.getElem?_append_left (List.getElem?_eq_some_iff.mp hid).1]
    exact hid

namespace InService

theorem event (L : InService hash h rs authors applied order p owners)
    {e : Observation StoreOp StoreAnswer} (hcrash : e ≠ .crashed)
    (hreturn : ∀ id ans, e = .returned id ans → ans.settles →
      ∃ x ∈ order, x.id = id ∧ x.ans = ans) :
    InService hash (h ++ [e]) rs authors applied order p owners :=
  { L with owner := fun k id c hid hc => (L.owner k id c hid hc).event hcrash hreturn }

/-- Every call in progress has an owner. -/
theorem exists_owner (L : InService hash h rs authors applied order p owners)
    (hc : p.calls[k]? = some c) : ∃ id, owners[k]? = some id ∧ Owns h authors order id c := by
  have hlt : k < owners.length := by
    rw [L.length]
    exact (List.getElem?_eq_some_iff.mp hc).1
  have hid := List.getElem?_eq_getElem hlt
  exact ⟨owners[k], hid, L.owner k _ c hid hc⟩

theorem distinct_at (L : InService hash h rs authors applied order p owners) {i j a b : Nat}
    (ha : owners[i]? = some a) (hb : owners[j]? = some b) (hne : i ≠ j) : a ≠ b := by
  rintro rfl
  obtain ⟨hi, hai⟩ := List.getElem?_eq_some_iff.mp ha
  obtain ⟨hj, hbj⟩ := List.getElem?_eq_some_iff.mp hb
  exact hne ((List.Nodup.getElem_inj_iff L.distinct).mp (hai.trans hbj.symm))

/-- A call goes through a scope and goes on. -/
theorem goesOn (L : InService hash h rs authors applied order p owners) (wal : WalWriter)
    {c' : Call} (hid : owners[k]? = some id) (O : Owns h authors order id c') :
    InService hash h rs authors applied order (p.put wal k (some c')) owners := by
  refine { L with length := ?_, owner := ?_ }
  · simp [Process.put, putThread, L.length]
  · intro j id' c hid' hc
    have hset : (p.calls.set k c')[j]? = some c := hc
    rw [List.getElem?_set] at hset
    split at hset
    · rename_i hkj
      subst hkj
      rw [hid] at hid'
      cases hid'
      obtain ⟨-, hc'⟩ := Option.ite_none_right_eq_some.mp hset
      cases hc'
      exact O
    · exact L.owner j id' c hid' hset

/-- What is left when a call has ended. -/
theorem rest (L : InService hash h rs authors applied order p owners) {j id' : Nat} {d : Call}
    (hid : owners[k]? = some id) (hid' : (owners.eraseIdx k)[j]? = some id')
    (hd : (p.calls.eraseIdx k)[j]? = some d) : id' ≠ id ∧ Owns h authors order id' d := by
  rw [List.getElem?_eraseIdx] at hid' hd
  split at hid'
  · rw [if_pos ‹_›] at hd
    exact ⟨L.distinct_at hid' hid (by omega), L.owner j id' d hid' hd⟩
  · rw [if_neg ‹_›] at hd
    exact ⟨L.distinct_at hid' hid (by omega), L.owner (j + 1) id' d hid' hd⟩

theorem length_rest (L : InService hash h rs authors applied order p owners) :
    (owners.eraseIdx k).length = (p.calls.eraseIdx k).length := by
  rw [List.length_eraseIdx, List.length_eraseIdx, L.length]

/-- A call ends without an effect. -/
theorem ends (L : InService hash h rs authors applied order p owners) (wal : WalWriter)
    (hid : owners[k]? = some id) :
    InService hash h rs authors applied order (p.put wal k none) (owners.eraseIdx k) where
  barrier := L.barrier
  kv := L.kv
  length := L.length_rest
  distinct := L.distinct.sublist (List.eraseIdx_sublist owners k)
  owner _ _ _ hid' hd := (L.rest hid hid' hd).2

/-- A call begins. -/
theorem begins (L : InService hash h rs authors applied order p owners) (hnew : id ∉ owners)
    (O : Owns h authors order id c) :
    InService hash h rs authors applied order { p with calls := p.calls ++ [c] }
      (owners ++ [id]) := by
  have hlen := L.length
  refine { L with length := by simp [hlen], distinct := ?_, owner := ?_ }
  · refine List.nodup_append.mpr ⟨L.distinct, List.nodup_singleton _, ?_⟩
    rintro a ha b hb rfl
    rw [List.mem_singleton.mp hb] at ha
    exact hnew ha
  · intro j id' d hid' hd
    replace hd : (p.calls ++ [c])[j]? = some d := hd
    by_cases hj : j < owners.length
    · rw [List.getElem?_append_left hj] at hid'
      rw [List.getElem?_append_left (by omega)] at hd
      exact L.owner j id' d hid' hd
    · rw [List.getElem?_append_right (by omega)] at hid' hd
      rw [List.mem_singleton.mp (List.mem_of_getElem? hid'),
        List.mem_singleton.mp (List.mem_of_getElem? hd)]
      exact O

end InService

end Calls

/-! ## The invariant -/

/-- The file, the books and the process agree.  What has been applied is in the part of the file
that has been fsync'd or that the last `Open` found. -/
structure Accounted (hash : Bytes → Nat) (s : Service) (rs : List WalRecord) (t : Bytes)
    (authors : List Nat) (applied : Nat) (order : List (Placement StoreOp StoreAnswer)) : Prop where
  stored : Stored s.machine rs t
  books : Books hash s.machine.process.isSome s.history rs authors applied order
  lasting : extent rs applied ≤ s.machine.durable ∨ extent rs applied ≤ s.found
  fresh : ∀ id op, .called id op ∈ s.history → id < s.next
  idle : s.machine.process = none → s.owners = []
  serving : ∀ p, s.machine.process = some p →
    InService hash s.history rs authors applied order p s.owners

/-- The number of bytes that a crash leaves. -/
def StorageAction.cut : StorageAction → Option Nat
  | .crash kept => some kept
  | _ => none

/-- `Append` finds a file of whole records, and gets a key and a value of at most 64 MiB each,
which is what the reader of the WAL accepts. -/
def wholeRecords (s : Service) : ServiceAction → Prop
  | .storage a => appendsWhole s.machine a
  | .get _ => True

/-- A crash leaves every byte that the last `Open` found. -/
def keepsFound (s : Service) : ServiceAction → Prop
  | .storage a => ∀ kept ∈ a.cut, s.found ≤ kept
  | .get _ => True

instance (s : Service) : (a : ServiceAction) → Decidable (wholeRecords s a)
  | .storage a => inferInstanceAs (Decidable (appendsWhole s.machine a))
  | .get _ => instDecidableTrue

instance (s : Service) : (a : ServiceAction) → Decidable (keepsFound s a)
  | .storage a => inferInstanceAs (Decidable (∀ kept ∈ a.cut, s.found ≤ kept))
  | .get _ => instDecidableTrue

def keepsOrder (s : Service) (a : ServiceAction) : Prop := wholeRecords s a ∧ keepsFound s a

instance (s : Service) (a : ServiceAction) : Decidable (keepsOrder s a) :=
  inferInstanceAs (Decidable (wholeRecords s a ∧ keepsFound s a))

namespace Accounted

variable {hash : Bytes → Nat} {s s' : Service} {rs : List WalRecord} {t : Bytes}
  {authors : List Nat} {applied : Nat} {order : List (Placement StoreOp StoreAnswer)} {p : Process}

theorem books_up (T : Accounted hash s rs t authors applied order)
    (hp : s.machine.process = some p) :
    Books hash true s.history rs authors applied order := by
  have B := T.books
  rw [hp] at B
  exact B

theorem next_fresh (T : Accounted hash s rs t authors applied order) (op : StoreOp) :
    .called s.next op ∉ s.history := fun h => Nat.lt_irrefl _ (T.fresh s.next op h)

theorem readable (T : Accounted hash s rs t authors applied order) {r : WalRecord} (hr : r ∈ rs) :
    r.readable = true := (T.stored.encodable r hr).1

/-- An operation that leaves the map alone. -/
theorem instant (T : Accounted hash s rs t authors applied order) (hp : s.machine.process = some p)
    {op : StoreOp} {ans : StoreAnswer}
    (hserve : (stateAfter PlainMap.serve PlainMap.empty order).serve op =
      (ans, stateAfter PlainMap.serve PlainMap.empty order)) :
    Accounted hash
      { s with
        next := s.next + 1
        history := s.history ++ [.called s.next op] ++ [.returned s.next ans] }
      rs t authors applied (order ++ [⟨s.next, op, ans⟩]) := by
  have B := (T.books_up hp).instant T.next_fresh hserve
  refine
    { T with
      books := ?_
      fresh := ?_
      serving := ?_ }
  · show Books hash s.machine.process.isSome _ rs authors applied _
    rw [hp]
    exact B
  · intro id op' hmem
    rcases List.mem_append.mp hmem with hmem | hmem
    · rcases List.mem_append.mp hmem with hmem | hmem
      · exact Nat.lt_succ_of_lt (T.fresh id op' hmem)
      · cases List.mem_singleton.mp hmem
        exact Nat.lt_succ_self _
    · cases List.mem_singleton.mp hmem
  · intro q hq
    have L := T.serving q hq
    refine { L with owner := fun k id c hid hc => ?_ }
    have O := L.owner k id c hid hc
    have hne : id ≠ s.next := by
      rintro rfl
      exact T.next_fresh _ O.called
    have O₁ : Owns (s.history ++ [.called s.next op]) authors order id c := O.event nofun nofun
    have O₂ : Owns (s.history ++ [.called s.next op]) authors (order ++ [⟨s.next, op, ans⟩]) id c :=
      O₁.effect hne
    refine O₂.event nofun ?_
    rintro id' ans' he -
    cases he
    exact ⟨_, List.mem_append_right _ (List.mem_singleton_self _), rfl, rfl⟩

/-- A call begins. -/
theorem called (T : Accounted hash s rs t authors applied order) (hp : s.machine.process = some p)
    {a : StorageAction} {op : StoreOp} {record : WalRecord}
    (ha : a.operation = some (op, .ok record)) :
    Accounted hash
      { s with
        machine := { s.machine with process := some { p with calls := p.calls ++ [{ record }] } }
        owners := s.owners ++ [s.next]
        next := s.next + 1
        history := s.history ++ [.called s.next op] }
      rs t authors applied order := by
  obtain ⟨hop, hreq⟩ := operation_of_called ha
  have B := T.books_up hp
  have L := T.serving p hp
  have hnew := B.explained.not_mem_ids T.next_fresh
  have hcall : ∀ id op', (.called s.next op : Observation StoreOp StoreAnswer) = .called id op' →
      id ∉ ids order := by
    rintro id op' he
    cases he
    exact hnew
  refine
    { stored := T.stored.called hp (StorageAction.request_ok hreq)
      books := B.event nofun hcall nofun
      lasting := T.lasting
      fresh := ?_
      idle := nofun
      serving := ?_ }
  · intro id op' hmem
    rcases List.mem_append.mp hmem with hmem | hmem
    · exact Nat.lt_succ_of_lt (T.fresh id op' hmem)
    · cases List.mem_singleton.mp hmem
      exact Nat.lt_succ_self _
  · rintro q hq
    cases hq
    have L₁ : InService hash (s.history ++ [.called s.next op]) rs authors applied order p
        s.owners := L.event nofun nofun
    refine L₁.begins ?_ ⟨?_, ?_, ?_, fun hstage => absurd rfl hstage⟩
    · intro hmem
      obtain ⟨k, hid⟩ := List.mem_iff_getElem?.mp hmem
      have hlt : k < p.calls.length := by
        rw [← L.length]
        exact (List.getElem?_eq_some_iff.mp hid).1
      exact T.next_fresh _ (L.owner k _ _ hid (List.getElem?_eq_getElem hlt)).called
    · rw [hop]
      exact List.mem_append_right _ (List.mem_singleton_self _)
    · exact Unsettled.of_call B.explained T.next_fresh op
    · intro _ hmem
      obtain ⟨i, hid⟩ := List.mem_iff_getElem?.mp hmem
      have hlt : i < rs.length := by
        rw [← B.length]
        exact (List.getElem?_eq_some_iff.mp hid).1
      exact T.next_fresh _ (B.called i _ _ hid (List.getElem?_eq_getElem hlt))

/-- Everything applied is in the file. -/
theorem extent_le (T : Accounted hash s rs t authors applied order) (i : Nat) :
    extent rs i ≤ s.machine.file.length := by
  rw [T.stored.file, List.length_append]
  exact Nat.le_add_right_of_le (length_encodeAll_take_le encodeWalRecord rs i)

/-- **`Open` replays the records that are left.** -/
theorem opened (T : Accounted hash s rs t authors applied order) (hdown : s.machine.process = none)
    {storage : DurableStorage} (hopen : DurableStorage.Open hash s.machine.file = .ok storage) :
    ∃ order', Accounted hash
      { s with
        machine := { s.machine with process := some { storage } }
        found := s.machine.file.length }
      rs t authors rs.length order' := by
  obtain ⟨order', B⟩ := Books.recovered (fun r hr => T.readable hr) (rs.length - applied) T.books
    (Nat.add_sub_of_le T.books.applied_le)
  refine ⟨order', T.stored.opened hopen, B.restart, Or.inr (T.extent_le _), T.fresh, nofun, ?_⟩
  rintro p hp
  cases hp
  rw [T.stored.open_eq hash] at hopen
  cases hopen
  have howners := T.idle hdown
  exact
    { barrier := rfl
      kv := by rw [List.take_length]
      length := by rw [howners]; rfl
      distinct := by rw [howners]; exact List.nodup_nil
      owner := fun k id c _ hc => by simp at hc }

/-- **A crash loses no operation that has taken effect.** -/
theorem crash (T : Accounted hash s rs t authors applied order) {kept : Nat}
    (hk : s.machine.durable ≤ kept) (hfound : s.found ≤ kept) :
    ∃ rs' t' authors', Accounted hash
      { s with
        machine := { s.machine with file := s.machine.file.take kept, process := none }
        owners := []
        history := s.history ++ [.crashed] }
      rs' t' authors' applied order := by
  obtain ⟨rs', t', S'⟩ := T.stored.crash hk
  obtain ⟨j, u, hcut, htorn, hbefore⟩ := cut_frames T.stored.torn rs T.stored.encodable kept
  -- the records before the cut, read in two ways
  have hrs : rs' = rs.take j := by
    have hscan := scanWal_frames S'.encodable S'.torn
    have hfile : s.machine.file.take kept = encodeAll encodeWalRecord rs' ++ t' := S'.file
    rw [← hfile, T.stored.file, hcut,
      scanWal_frames (fun r hr => T.stored.encodable r (List.mem_of_mem_take hr)) htorn] at hscan
    exact (congrArg Scan.frames hscan).symm
  subst hrs
  have hkept : extent rs applied ≤ kept := by
    rcases T.lasting with hdurable | hopened
    · exact Nat.le_trans hdurable hk
    · exact Nat.le_trans hopened hfound
  have hj : applied ≤ j := hbefore applied T.books.applied_le hkept
  refine ⟨rs.take j, t', authors.take j, S', T.books.crash hj, ?_, ?_, fun _ => rfl, nofun⟩
  · rw [extent_take hj]
    exact T.lasting
  · intro id op hmem
    rcases List.mem_append.mp hmem with hmem | hmem
    · exact T.fresh id op hmem
    · cases List.mem_singleton.mp hmem

/-- A call writes its record. -/
theorem appended (T : Accounted hash s rs [] authors applied order)
    (hp : s.machine.process = some p) {k : Nat} {record : WalRecord}
    (hc : p.calls[k]? = some ⟨record, .append⟩) (hkey : record.key.length ≤ kMaxFieldSize)
    (hvalue : record.value.length ≤ kMaxFieldSize)
    (hsize : (s.machine.file ++ encodeWalRecord
      { record with index := p.storage.wal.lastIndex + 1 }).length ≤ maxFileSize) :
    ∃ rs' authors', Accounted hash
      { s with
        machine :=
          { s.machine with
            file := s.machine.file ++
              encodeWalRecord { record with index := p.storage.wal.lastIndex + 1 }
            process := some (p.put
              { p.storage.wal with lastIndex := p.storage.wal.lastIndex + 1 } k
              (some ⟨{ record with index := p.storage.wal.lastIndex + 1 }, .sync⟩))
            written := s.machine.written ++
              [{ record with index := p.storage.wal.lastIndex + 1 }] } }
      rs' [] authors' applied order := by
  have B := T.books_up hp
  have L := T.serving p hp
  have hlast := (T.stored.process p hp).last
  obtain ⟨id, hid, O⟩ := L.exists_owner hc
  refine ⟨_, authors ++ [id], T.stored.appended hp hc hkey hvalue hsize,
    B.written O.called (O.unwritten rfl) O.unsettled, ?_, T.fresh, (fun h => by cases h), ?_⟩
  · rw [extent_concat B.applied_le]
    exact T.lasting
  · rintro q hq
    cases hq
    refine ⟨L.barrier, ?_, ?_, L.distinct, ?_⟩
    · rw [List.take_append_of_le_length B.applied_le]
      exact L.kv
    · simp [Process.put, putThread, L.length]
    · intro j id' d hid' hd
      replace hd : (p.calls.set k _)[j]? = some d := hd
      rw [List.getElem?_set] at hd
      split at hd
      · rename_i hkj
        subst hkj
        rw [hid] at hid'
        cases hid'
        cases (Option.ite_none_right_eq_some.mp hd).2
        refine ⟨O.called, O.unsettled, (fun h => by cases h), fun _ => ?_⟩
        rw [hlast, ← B.length, Nat.add_sub_cancel, List.getElem?_concat_length]
      · exact (L.owner j id' d hid' hd).author (L.distinct_at hid' hid (Ne.symm ‹_›))

/-- A call goes on to its next stage. -/
theorem goesOn (T : Accounted hash s rs t authors applied order) (hp : s.machine.process = some p)
    {k : Nat} {c : Call} {stage : CallStage} {wal : WalWriter} {durable : Nat}
    (hc : p.calls[k]? = some c) (hold : c.stage ≠ .append) (hnew : stage ≠ .append)
    (hdurable : s.machine.durable ≤ durable)
    (S : Stored
      { s.machine with
        durable := durable
        process := some (p.put wal k (some { c with stage := stage })) } rs t) :
    Accounted hash
      { s with
        machine :=
          { s.machine with
            durable := durable
            process := some (p.put wal k (some { c with stage := stage })) } }
      rs t authors applied order := by
  have L := T.serving p hp
  obtain ⟨id, hid, O⟩ := L.exists_owner hc
  refine ⟨S, T.books_up hp, ?_, T.fresh, nofun, ?_⟩
  · exact T.lasting.imp_left fun hle => Nat.le_trans hle hdurable
  · rintro q hq
    cases hq
    exact L.goesOn wal hid
      ⟨O.called, O.unsettled, fun h => absurd h hnew, fun _ => O.written hold⟩

/-- A call returns an I/O error. -/
theorem fails (T : Accounted hash s rs t authors applied order) (hp : s.machine.process = some p)
    {k : Nat} {c : Call} {wal : WalWriter} {file t' : Bytes} {status : Status}
    (hc : p.calls[k]? = some c) (hstatus : status.code = .kIOError)
    (S : Stored { s.machine with file := file, process := some (p.put wal k none) } rs t') :
    Accounted hash
      (s.ends { s.machine with file := file, process := some (p.put wal k none) } k status)
      rs t' authors applied order := by
  have L := T.serving p hp
  obtain ⟨id, hid, -⟩ := L.exists_owner hc
  have hreturn : ∀ id' ans, (.returned id (.status status) : Observation StoreOp StoreAnswer) =
      .returned id' ans → ans.settles → ∃ x ∈ order, x.id = id' ∧ x.ans = ans := by
    rintro id' ans he hsettles
    cases he
    exact absurd hstatus hsettles
  unfold Service.ends
  rw [hid]
  refine ⟨S, (T.books_up hp).event nofun nofun hreturn, T.lasting, ?_, nofun, ?_⟩
  · intro id' op hmem
    rcases List.mem_append.mp hmem with hmem | hmem
    · exact T.fresh id' op hmem
    · cases List.mem_singleton.mp hmem
  · rintro q hq
    cases hq
    have L₁ : InService hash (s.history ++ [.returned id (.status status)]) rs authors applied order
        p s.owners := L.event nofun hreturn
    exact L₁.ends wal hid

/-- **A call applies its record and returns**: the operation takes effect. -/
theorem takesEffect (T : Accounted hash s rs t authors applied order)
    (hp : s.machine.process = some p) {k : Nat} {record : WalRecord}
    (hc : p.calls[k]? = some ⟨record, .apply⟩)
    (hbarrier : p.storage.lastAppliedIndex = record.index - 1) :
    ∃ order', Accounted hash
      (s.ends
        { s.machine with
          process := some
            { storage :=
                { p.storage with
                  kv := applyRecord p.storage.kv record, lastAppliedIndex := record.index }
              calls := putThread p.calls k none }
          acked := s.machine.acked ++ [record] }
        k (p.storage.kv.statusOf record))
      rs t authors (applied + 1) order' := by
  have L := T.serving p hp
  have C := (T.stored.process p hp).calls _ (List.mem_of_getElem? hc)
  obtain ⟨id, hid, O⟩ := L.exists_owner hc
  have hplaced : Placed rs record := C.placed nofun
  have hindex := T.stored.numbered _ record hplaced
  have happlied : applied = record.index - 1 := L.barrier.symm.trans hbarrier
  have hauthor : authors[applied]? = some id := by
    rw [happlied]
    exact O.written nofun
  have hrecord : rs[applied]? = some record := by
    rw [happlied]
    exact hplaced
  have B := (T.books_up hp).takesEffect hauthor hrecord (T.readable hplaced.mem)
  rw [← L.kv] at B
  have hreturn : ∀ id' ans, (.returned id (.status (p.storage.kv.statusOf record)) :
      Observation StoreOp StoreAnswer) = .returned id' ans → ans.settles →
      ∃ x ∈ order ++ [⟨id, record.operation, .status (p.storage.kv.statusOf record)⟩],
        x.id = id' ∧ x.ans = ans := by
    rintro id' ans he -
    cases he
    exact ⟨_, List.mem_append_right _ (List.mem_singleton_self _), rfl, rfl⟩
  refine ⟨order ++ [⟨id, record.operation, .status (p.storage.kv.statusOf record)⟩], ?_⟩
  unfold Service.ends
  rw [hid]
  refine ⟨T.stored.applied hp hc _ rfl, B.event nofun nofun hreturn, ?_, ?_, nofun, ?_⟩
  · have hext : extent rs record.index ≤ s.machine.durable := C.fixed nofun (C.applying rfl)
    refine Or.inl ?_
    rw [show applied + 1 = record.index by omega]
    exact hext
  · intro id' op hmem
    rcases List.mem_append.mp hmem with hmem | hmem
    · exact T.fresh id' op hmem
    · cases List.mem_singleton.mp hmem
  · rintro q hq
    cases hq
    refine
      { barrier := show record.index = applied + 1 by omega
        kv := ?_
        length := L.length_rest
        distinct := L.distinct.sublist (List.eraseIdx_sublist s.owners k)
        owner := ?_ }
    · show applyRecord p.storage.kv record = _
      rw [L.kv, List.take_add_one, hrecord, Option.toList_some, replay_append]
      rfl
    · intro j id' d hid' hd
      obtain ⟨hne, O'⟩ := L.rest hid hid' hd
      have O₁ : Owns s.history authors
          (order ++ [⟨id, record.operation, .status (p.storage.kv.statusOf record)⟩]) id' d :=
        O'.effect hne
      exact O₁.event nofun hreturn

/-- **Every move keeps the accounts.** -/
theorem move (T : Accounted hash s rs t authors applied order) {a : ServiceAction}
    (hok : keepsOrder s a) (mv : ServiceMove hash s a s') :
    ∃ rs' t' authors' applied' order', Accounted hash s' rs' t' authors' applied' order' := by
  cases mv with
  | failedOpen hopen =>
    rw [T.stored.open_eq hash] at hopen
    cases hopen
  | opened hp hopen =>
    obtain ⟨order', T'⟩ := T.opened hp hopen
    exact ⟨_, _, _, _, _, T'⟩
  | crash hk =>
    obtain ⟨rs', t', authors', T'⟩ := T.crash hk (hok.2 _ rfl)
    exact ⟨_, _, _, _, _, T'⟩
  | rejected hp ha => exact ⟨_, _, _, _, _, T.instant hp (serve_rejected ha _)⟩
  | called hp ha => exact ⟨_, _, _, _, _, T.called hp ha⟩
  | @read key p hp =>
    refine ⟨_, _, _, _, _, T.instant hp ?_⟩
    have hget : p.storage.kv.get key =
        (stateAfter PlainMap.serve PlainMap.empty order).get key := by
      rw [(T.serving p hp).kv]
      exact T.books.store.get key
    rw [hget]
    rfl
  | @appended k _ _ hp hc hsize =>
    have hwhole : appendsWhole s.machine (.append k .complete) := hok.1
    obtain ⟨rfl, hkey, hvalue⟩ := T.stored.append_inputs hp hwhole hc
    obtain ⟨rs', authors', T'⟩ := T.appended hp hc hkey hvalue hsize
    exact ⟨_, _, _, _, _, T'⟩
  | @appendFailed k written errno _ _ hp hc hwritten hsize =>
    have hwhole : appendsWhole s.machine (.append k (.failed written errno)) := hok.1
    obtain ⟨rfl, hkey, hvalue⟩ := T.stored.append_inputs hp hwhole hc
    exact ⟨_, _, _, _, _, T.fails hp hc rfl
      (T.stored.appendFailed hp hc hkey hvalue hwritten hsize)⟩
  | synced stage wal hp hc hold hnew happly hopen hlast hsynced =>
    have P := T.stored.process _ hp
    have C := P.calls _ (List.mem_of_getElem? hc)
    refine ⟨_, _, _, _, _, T.goesOn hp hc hold hnew (Nat.le_refl _) (T.stored.putProcess ?_)⟩
    refine P.put hopen hlast hsynced ?_
    rintro c' hc'
    cases hc'
    exact C.setStage hold happly
  | flushed hp hc =>
    exact ⟨_, _, _, _, _, T.goesOn hp hc nofun nofun T.stored.durable (T.stored.flushed hp hc)⟩
  | flushFailed hp hc =>
    exact ⟨_, _, _, _, _, T.fails hp hc rfl
      (T.stored.putProcess ((T.stored.process _ hp).put rfl rfl rfl nofun))⟩
  | applied hp hc hbarrier =>
    obtain ⟨order', T'⟩ := T.takesEffect hp hc hbarrier
    exact ⟨_, _, _, _, _, T'⟩

theorem init : Accounted hash {} [] [] [] 0 [] where
  stored :=
    ⟨rfl, Or.inl rfl, nofun, Numbered.nil, Nat.le_refl _, Nat.zero_le _, nofun, nofun, nofun⟩
  books := Books.empty
  lasting := Or.inl (Nat.le_refl _)
  fresh := nofun
  idle _ := rfl
  serving := nofun

end Accounted

theorem run_accounted {hash : Bytes → Nat} {s : Service} (hr : Service.Run hash keepsOrder s) :
    ∃ rs t authors applied order, Accounted hash s rs t authors applied order := by
  induction hr with
  | init => exact ⟨_, _, _, _, _, Accounted.init⟩
  | step _ ha hs ih =>
    obtain ⟨rs, t, authors, applied, order, T⟩ := ih
    exact T.move ha (service_move (fun p hp => (T.stored.process p hp).opened) hs)

/-! ## Results -/

/-- **Durable linearizability of the single-node store.**  Take any run with any number of
concurrent `Set`, `Delete` and `Get` calls, failing writes and flushes, crashes and restarts, in
which `Append` never writes behind a torn record, keys and values are of at most 64 MiB, and no
crash takes back what the last `Open` found.  One order of operations on one map explains all
answers of all incarnations: every operation with an answer that is no I/O error is in it with that
answer, no operation is in it twice, and none stands behind an operation that was called after it
had got such an answer or after a later crash. -/
theorem one_order_of_operations {hash : Bytes → Nat} {s : Service}
    (hr : Service.Run hash keepsOrder s) :
    ∃ order, Serializes PlainMap.serve PlainMap.empty StoreAnswer.settles s.history order := by
  obtain ⟨_, _, _, _, order, T⟩ := run_accounted hr
  exact ⟨order, T.books.explained⟩

deriving instance DecidableEq for StoreAnswer

/-- A write whose `fsync` fails is not seen at first, is there after a restart and is deleted. -/
theorem one_order_of_operations_restart :
    ∃ s, Service.Run (fun _ => 0) keepsOrder s ∧
      (.returned 0 (.status ⟨.kIOError, "fsync wal: EIO"⟩) ∈ s.history ∧
        .returned 1 (.value (.error ShardedKV.keyNotFound)) ∈ s.history ∧
        .returned 2 (.value (.ok [49])) ∈ s.history ∧ .returned 3 (.status .Ok) ∈ s.history) ∧
      ∃ order, Serializes PlainMap.serve PlainMap.empty StoreAnswer.settles s.history order := by
  obtain ⟨s, hr, hs⟩ : ∃ s, Service.Run (fun _ => 0) keepsOrder s ∧
      decide (.returned 0 (.status ⟨.kIOError, "fsync wal: EIO"⟩) ∈ s.history ∧
        .returned 1 (.value (.error ShardedKV.keyNotFound)) ∈ s.history ∧
        .returned 2 (.value (.ok [49])) ∈ s.history ∧
        .returned 3 (.status .Ok) ∈ s.history) = true :=
    exists_run
      [.storage .openStorage, .storage (.set [97] [49]), .storage (.append 0 .complete),
        .storage (.sync 0), .storage (.flush 0 (some "EIO")), .get [97], .storage (.crash 31),
        .storage .openStorage, .get [97], .storage (.delete [97]), .storage (.append 0 .complete),
        .storage (.sync 0), .storage (.flush 0 none), .storage (.apply 0)]
      (by decide +kernel)
  exact ⟨s, hr, of_decide_eq_true hs, one_order_of_operations hr⟩

/-- A key stays present as long as it is only set and read. -/
theorem present_while_kept {key value : Bytes} (hkey : key ≠ []) (hvalue : value ≠ []) :
    ∀ (order : List (Placement StoreOp StoreAnswer)) (m : PlainMap),
      (∀ x ∈ order, x.op = .set key value ∨ x.op = .get key) → Legal PlainMap.serve m order →
      key ∈ m.entries → ∀ x ∈ order, x.ans ≠ .value (.error ShardedKV.keyNotFound)
  | [], _, _, _, _, x, hx => by cases hx
  | y :: order, m, hops, hlegal, hmem, x, hx => by
    obtain ⟨hans, hrest⟩ := hlegal
    have hnext : key ∈ (m.serve y.op).2.entries := by
      rcases hops y List.mem_cons_self with hop | hop
      · rw [hop, serve_set hvalue]
        simp [PlainMap.apply, PlainMap.set, hkey]
      · rw [hop]
        exact hmem
    rcases List.mem_cons.mp hx with rfl | hx
    · intro hmissing
      rw [hmissing] at hans
      rcases hops x List.mem_cons_self with hop | hop
      · rw [hop, serve_set hvalue] at hans
        cases hans
      · rw [hop] at hans
        obtain ⟨v, hv⟩ := (m.get_ok_iff key).mpr (Finmap.mem_keys.mpr hmem)
        have hget : m.get key = .error ShardedKV.keyNotFound := StoreAnswer.value.inj hans
        rw [hv] at hget
        cases hget
    · exact present_while_kept hkey hvalue order _
        (fun z hz => hops z (List.mem_cons_of_mem _ hz)) hrest hnext x hx

/-- **What `Open` finds is not yet durable.**  A record that was written and never fsync'd survives
the end of its process, is read in the next incarnation, and is gone after a crash that keeps only
what was fsync'd: no order explains the two reads. -/
theorem recovered_write_vanishes : ∃ s, Service.Run (fun _ => 0) wholeRecords s ∧
    ¬ ∃ order, Serializes PlainMap.serve PlainMap.empty StoreAnswer.settles s.history order := by
  obtain ⟨s, hr, hs⟩ : ∃ s, Service.Run (fun _ => 0) wholeRecords s ∧
      decide (s.history =
        [.called 0 (.set [97] [49]), .crashed, .called 1 (.get [97]),
          .returned 1 (.value (.ok [49])), .crashed, .called 2 (.get [97]),
          .returned 2 (.value (.error ShardedKV.keyNotFound))]) = true :=
    exists_run
      [.storage .openStorage, .storage (.set [97] [49]), .storage (.append 0 .complete),
        .storage (.crash 31), .storage .openStorage, .get [97], .storage (.crash 0),
        .storage .openStorage, .get [97]]
      (by decide +kernel)
  refine ⟨s, hr, ?_⟩
  rintro ⟨order, L⟩
  have hhist := of_decide_eq_true hs
  obtain ⟨x, hx, hxid, hxans⟩ := L.answered 1 (.value (.ok [49])) (by rw [hhist]; decide) trivial
  obtain ⟨y, hy, hyid, hyans⟩ :=
    L.answered 2 (.value (.error ShardedKV.keyNotFound)) (by rw [hhist]; decide) trivial
  have hops : ∀ z ∈ order, z.op = .set [97] [49] ∨ z.op = .get [97] := by
    intro z hz
    have hcalled := L.called z hz
    rw [hhist] at hcalled
    simp at hcalled
    grind
  -- the first read is over when the second is called
  have hprecedes : Precedes StoreAnswer.settles s.history x.id y.id := by
    refine ⟨s.history.take 4, s.history.drop 4, (List.take_append_drop 4 _).symm, ?_, .get [97], ?_⟩
    · rw [hhist, hxid]
      exact .returned (show StoreAnswer.settles (.value (.ok [49])) from trivial) (by decide)
    · rw [hhist, hyid]
      decide
  obtain ⟨before, after, rfl⟩ := List.append_of_mem hx
  have hyafter : y ∈ after := by
    rcases List.mem_append.mp hy with hbefore | hrest
    · have hpairs := (List.pairwise_append.mp L.realTime).2.2 y hbefore x List.mem_cons_self
      exact absurd hprecedes hpairs
    · rcases List.mem_cons.mp hrest with rfl | hafter
      · rw [hxid] at hyid
        cases hyid
      · exact hafter
  obtain ⟨-, hread, hlegal⟩ := legal_append.mp L.legal
  have hxop : x.op = .get [97] := by
    have hcalled := L.called x hx
    rw [hhist, hxid] at hcalled
    simp at hcalled
    exact hcalled
  rw [hxop, hxans] at hread
  rw [hxop] at hlegal
  have hfound := StoreAnswer.value.inj hread
  have hmem := Finmap.mem_keys.mp ((PlainMap.get_ok_iff _ [97]).mp ⟨_, hfound⟩)
  exact present_while_kept (by decide) (by decide) after _
    (fun z hz => hops z (List.mem_append_right _ (List.mem_cons_of_mem _ hz))) hlegal hmem y hyafter
    hyans

end NeuralKV
