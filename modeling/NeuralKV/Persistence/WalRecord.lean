import NeuralKV.Storage.ShardedKV

/-!
# WAL records and their replay

Model of `src/persistence/wal_record.h` and of the part of `recovery.cpp` and
`durable_storage.cpp` that works on decoded records: a record, the field checks a reader
applies to a complete record, its effect on the store, and records numbered by position.  The
byte format is in `NeuralKV.Persistence.WalCodec`.
-/

set_option autoImplicit false

namespace NeuralKV

inductive WalOp where
  | kSet
  | kDelete
  deriving DecidableEq, Repr

/-- One durable mutation.  `raft::LogEntry` has the same fields and "doubles as the on-disk WAL
record for that index". -/
structure WalRecord where
  term : Nat := 0
  index : Nat := 0
  op : WalOp := .kSet
  key : Bytes := []
  value : Bytes := []
  deriving DecidableEq, Repr

/-- `kMaxFieldSize`: cap on a declared field length, 64 MiB. -/
def kMaxFieldSize : Nat := 64 * 1024 * 1024

/-- The checks `ReadNextWalRecord` makes on the fields of a complete record whose CRC matches:
lengths within the cap, a non-empty key, a non-empty value for a SET. -/
def WalRecord.readable (r : WalRecord) : Bool :=
  decide (r.key.length ≤ kMaxFieldSize) && decide (r.value.length ≤ kMaxFieldSize) &&
    decide (r.key ≠ []) && decide (r.op = .kSet → r.value ≠ [])

/-- The switch on `record.op` shared by `RecoverFromWal` and `ApplyCommitted`; the store's own
status is discarded by both. -/
def applyRecord (kv : ShardedKV) (r : WalRecord) : ShardedKV :=
  match r.op with
  | .kSet => (kv.set r.key r.value).2
  | .kDelete => (kv.delete r.key).2

/-- Apply records in order. -/
def replay (kv : ShardedKV) (rs : List WalRecord) : ShardedKV := rs.foldl applyRecord kv

@[simp] theorem applyRecord_hash (kv : ShardedKV) (r : WalRecord) :
    (applyRecord kv r).hash = kv.hash := by
  unfold applyRecord
  split <;> simp

theorem replay_append (kv : ShardedKV) (rs ss : List WalRecord) :
    replay kv (rs ++ ss) = replay (replay kv rs) ss := List.foldl_append

theorem replay_hash (rs : List WalRecord) : ∀ kv : ShardedKV, (replay kv rs).hash = kv.hash := by
  induction rs with
  | nil => intro kv; rfl
  | cons r rs ih => intro kv; exact (ih (applyRecord kv r)).trans (applyRecord_hash kv r)

/-! ## What the store holds -/

/-- What a store holds, key by key. -/
abbrev Contents := Bytes → Option Bytes

/-- The contents after a write. -/
def contentsAfter (m : Contents) (r : WalRecord) : Contents :=
  Function.update m r.key
    (match r.op with
    | .kSet => some r.value
    | .kDelete => none)

theorem contents_applyRecord (kv : ShardedKV) {r : WalRecord} (hkey : r.key ≠ []) :
    (applyRecord kv r).contents = contentsAfter kv.contents r := by
  unfold applyRecord contentsAfter
  cases r.op with
  | kSet => exact (kv.set_eq hkey r.value).2
  | kDelete => exact (kv.delete_eq hkey).2

/-- A record without a key is not applied. -/
theorem applyRecord_nil (kv : ShardedKV) {r : WalRecord} (hkey : r.key = []) :
    applyRecord kv r = kv := by
  unfold applyRecord ShardedKV.set ShardedKV.delete
  cases r.op <;> simp [hkey]

/-- Records of other keys change nothing. -/
theorem contents_replay_of_ne {key : Bytes} : ∀ {rs : List WalRecord} (kv : ShardedKV),
    (∀ r ∈ rs, r.key ≠ key) → (replay kv rs).contents key = kv.contents key
  | [], _, _ => rfl
  | r :: rs, kv, h => by
    refine (contents_replay_of_ne (applyRecord kv r)
      fun x hx => h x (List.mem_cons_of_mem _ hx)).trans ?_
    by_cases hkey : r.key = []
    · rw [applyRecord_nil kv hkey]
    · rw [contents_applyRecord kv hkey]
      exact Function.update_of_ne (h r List.mem_cons_self).symm _ _

/-! ## Numbered records -/

/-- Record `i` carries index `i + 1`. -/
def Numbered (records : List WalRecord) : Prop := ∀ i e, records[i]? = some e → e.index = i + 1

theorem Numbered.nil : Numbered [] := by
  intro i e h
  simp at h

theorem Numbered.of_isPrefix {l m : List WalRecord} (h : Numbered m) (hl : l <+: m) : Numbered l := by
  intro i e he
  obtain ⟨t, rfl⟩ := hl
  refine h i e ?_
  rw [List.getElem?_append_left (List.getElem?_eq_some_iff.mp he).1]
  exact he

theorem Numbered.concat {l : List WalRecord} (h : Numbered l) {e : WalRecord}
    (he : e.index = l.length + 1) : Numbered (l ++ [e]) := by
  intro i a ha
  by_cases hi : i < l.length
  · rw [List.getElem?_append_left hi] at ha
    exact h i a ha
  · have hlt := (List.getElem?_eq_some_iff.mp ha).1
    rw [List.length_append, List.length_singleton] at hlt
    have hi' : i = l.length := by omega
    subst hi'
    rw [List.getElem?_append_right (Nat.le_refl _), Nat.sub_self] at ha
    cases ha
    exact he

theorem Numbered.getLast {l : List WalRecord} (h : Numbered l) :
    (l.getLast?.map (·.index)).getD 0 = l.length := by
  cases hl : l.getLast? with
  | none => rw [List.getLast?_eq_none_iff] at hl; subst hl; rfl
  | some e =>
    rw [List.getLast?_eq_getElem?] at hl
    have hlt := (List.getElem?_eq_some_iff.mp hl).1
    have := h _ e hl
    simp only [Option.map_some, Option.getD_some]
    omega

end NeuralKV
