import NeuralKV.Persistence.WalRecord
import Mathlib.Data.List.DropRight

/-!
# The Raft log

Model of `src/raft/log.cpp` over a WAL whose operations succeed (`WalWriter::Append`, `Sync`,
`RewriteAll` all returning `Ok`).  The WAL file is the list of the records it encodes; that the
readers get this list back from the bytes is `NeuralKV.Persistence.WalCodec`.

`Log.Contiguous` is the invariant the code relies on without checking it: entry `i` carries
index `i + 1`, the writer's counter is the length of the log, and file and memory are the same
list.  Every operation preserves it (`append_contiguous`, `truncateFrom_contiguous`,
`load_contiguous`).
-/

set_option autoImplicit false

namespace NeuralKV

/-- `raft::LogEntry`. -/
abbrev LogEntry := WalRecord

/-- `WalWriter` at the level of whole records: the file, `last_index_` and `synced_index_`. -/
structure WalFile where
  records : List WalRecord := []
  lastIndex : Nat := 0
  syncedIndex : Nat := 0
  deriving DecidableEq, Repr

namespace WalFile

/-- `WalWriter::Append` followed by a covering `Sync`: the record gets the next index. -/
def append (wal : WalFile) (record : WalRecord) : WalFile where
  records := wal.records ++ [{ record with index := wal.lastIndex + 1 }]
  lastIndex := wal.lastIndex + 1
  syncedIndex := wal.lastIndex + 1

/-- `WalWriter::RewriteAll`. -/
def rewriteAll (records : List WalRecord) : WalFile where
  records := records
  lastIndex := (records.getLast?.map (·.index)).getD 0
  syncedIndex := (records.getLast?.map (·.index)).getD 0

/-- `WalWriter::OpenOrCreate`: the scan learns the index of the last record. -/
def openOrCreate (records : List WalRecord) : WalFile := rewriteAll records

end WalFile

structure Log where
  entries : List LogEntry := []
  wal : WalFile := {}
  deriving DecidableEq, Repr

namespace Log

/-- `Log::Load`: every record of the file, or an error at the first one a reader rejects. -/
def load (records : List WalRecord) : Option Log :=
  if records.all (·.readable) then
    some { entries := records, wal := WalFile.openOrCreate records }
  else none

/-- `Log::Append`: the entry gets its index from the WAL writer. -/
def append (log : Log) (entry : LogEntry) : Log where
  entries := log.entries ++ [{ entry with index := log.wal.lastIndex + 1 }]
  wal := log.wal.append entry

/-- `Log::TruncateFrom`; index `0` is refused. -/
def truncateFrom (log : Log) (fromIndex : Nat) : Log :=
  if fromIndex = 0 then log
  else
    let kept := log.entries.rdropWhile (fun e => decide (fromIndex ≤ e.index))
    { entries := kept, wal := WalFile.rewriteAll kept }

/-- `Log::Get`. -/
def get (log : Log) (index : Nat) : Option LogEntry :=
  if index = 0 then none
  else
    match log.entries[index - 1]? with
    | none => none
    | some entry => if entry.index = index then some entry else none

/-- `Log::EntriesFrom`. -/
def entriesFrom (log : Log) (index : Nat) : List LogEntry :=
  if index = 0 then [] else log.entries.drop (index - 1)

/-- `Log::LastIndex`. -/
def lastIndex (log : Log) : Nat := (log.entries.getLast?.map (·.index)).getD 0

/-- `Log::LastTerm`. -/
def lastTerm (log : Log) : Nat := (log.entries.getLast?.map (·.term)).getD 0

/-! ## Contiguity -/

structure Contiguous (log : Log) : Prop where
  numbered : Numbered log.entries
  lastIndex : log.wal.lastIndex = log.entries.length
  records : log.wal.records = log.entries

theorem Contiguous.empty : Contiguous {} := ⟨Numbered.nil, rfl, rfl⟩

theorem Contiguous.lastIndex_eq {log : Log} (h : log.Contiguous) :
    log.lastIndex = log.entries.length := h.numbered.getLast

/-- On a contiguous log `Get` is the lookup by position. -/
theorem Contiguous.get_eq {log : Log} (h : log.Contiguous) {index : Nat} (h0 : 0 < index) :
    log.get index = log.entries[index - 1]? := by
  unfold get
  rw [if_neg (by omega)]
  split
  · rename_i hn; rw [hn]
  · rename_i e he
    have := h.numbered _ e he
    rw [if_pos (by omega), he]

theorem Contiguous.le_of_get {log : Log} (h : log.Contiguous) {index : Nat} {entry : LogEntry}
    (hget : log.get index = some entry) : index ≤ log.entries.length := by
  by_cases h0 : index = 0
  · omega
  · rw [h.get_eq (by omega)] at hget
    have := (List.getElem?_eq_some_iff.mp hget).1
    omega

theorem append_entries (log : Log) (h : log.Contiguous) (entry : LogEntry) :
    (log.append entry).entries =
      log.entries ++ [{ entry with index := log.entries.length + 1 }] := by
  unfold append
  rw [h.lastIndex]

/-- **Appending keeps the log contiguous.** -/
theorem append_contiguous {log : Log} (h : log.Contiguous) (entry : LogEntry) :
    (log.append entry).Contiguous := by
  refine ⟨?_, ?_, ?_⟩
  · rw [append_entries log h]
    exact h.numbered.concat rfl
  · rw [append_entries log h, List.length_append]
    simp only [append, WalFile.append, h.lastIndex, List.length_singleton]
  · rw [append_entries log h]
    simp only [append, WalFile.append, h.lastIndex, h.records]

/-- Dropping the entries with index at least `k + 1` from the back leaves the first `k`. -/
theorem rdropWhile_numbered :
    ∀ {l : List LogEntry}, Numbered l → ∀ k,
      l.rdropWhile (fun e => decide (k + 1 ≤ e.index)) = l.take k := by
  intro l
  induction l using List.reverseRecOn with
  | nil => intro _ k; simp
  | append_singleton l a ih =>
    intro h k
    have ha : a.index = l.length + 1 := h l.length a (by simp)
    have hl : Numbered l := h.of_isPrefix (List.prefix_append _ _)
    by_cases hk : k ≤ l.length
    · rw [List.rdropWhile_concat_pos _ _ _ (by rw [ha]; simp; omega), ih hl k,
        List.take_append_of_le_length hk]
    · rw [List.rdropWhile_concat_neg _ _ _ (by rw [ha]; simp; omega),
        List.take_of_length_le (by rw [List.length_append, List.length_singleton]; omega)]

theorem truncateFrom_entries {log : Log} (h : log.Contiguous) (k : Nat) :
    (log.truncateFrom (k + 1)).entries = log.entries.take k := by
  unfold truncateFrom
  rw [if_neg (by omega)]
  exact rdropWhile_numbered h.numbered k

/-- **Truncating keeps the log contiguous.** -/
theorem truncateFrom_contiguous {log : Log} (h : log.Contiguous) (k : Nat) :
    (log.truncateFrom (k + 1)).Contiguous := by
  have he := truncateFrom_entries h k
  have hnum : Numbered (log.entries.take k) := h.numbered.of_isPrefix (List.take_prefix k _)
  unfold truncateFrom at he ⊢
  rw [if_neg (by omega)] at he ⊢
  simp only at he ⊢
  rw [he]
  exact ⟨hnum, hnum.getLast, rfl⟩

/-- **Reloading a contiguous log's file gives the same log.** -/
theorem load_contiguous {log log' : Log} (h : log.Contiguous)
    (hl : load log.wal.records = some log') : log'.entries = log.entries ∧ log'.Contiguous := by
  unfold load at hl
  split at hl
  · cases hl
    refine ⟨h.records, ⟨?_, ?_, rfl⟩⟩
    · simp only [h.records]; exact h.numbered
    · simp only [WalFile.openOrCreate, WalFile.rewriteAll, h.records]
      exact h.numbered.getLast
  · cases hl

end Log

end NeuralKV
