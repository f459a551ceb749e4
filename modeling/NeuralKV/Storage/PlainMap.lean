import Mathlib.Data.Set.Card
import NeuralKV.Lib.Objects
import NeuralKV.Lib.Sharding
import NeuralKV.Storage.ShardedKV

/-!
# The sharded store is a plain map

What `ShardedKV` is for: one finite map from non-empty keys to values.  The hash function of the
process decides only in which of the 256 shards a key lives.

* `PlainMap` — the map, with the three operations and the number of its keys.
* `ShardedKV.Holds` — the representation: each entry of the map is in the shard of its key, and the
  shards hold nothing else.  Every operation keeps it and answers alike (`holds_simulates`).
* `sharded_store_is_plain_map` — **for every hash function and every sequence of operations** the
  answers and the sizes are those of the map.
-/

set_option autoImplicit false

namespace NeuralKV

open Objects Sharding

/-! ## Operations -/

/-- A call of the store. -/
inductive StoreOp where
  | set (key value : Bytes)
  | get (key : Bytes)
  | delete (key : Bytes)
  deriving DecidableEq, Repr

/-- What a call returns: `Status`, or `Result<std::string>`. -/
inductive StoreAnswer where
  | status (s : Status)
  | value (r : Except Status Bytes)

/-- One call of the sharded store. -/
def ShardedKV.apply (kv : ShardedKV) : StoreOp → StoreAnswer × ShardedKV
  | .set key value => (.status (kv.set key value).1, (kv.set key value).2)
  | .get key => (.value (kv.get key), kv)
  | .delete key => (.status (kv.delete key).1, (kv.delete key).2)

/-! ## The map -/

/-- A finite map over non-empty keys. -/
structure PlainMap where
  entries : Finmap (fun _ : Bytes => Bytes)
  nonEmpty : [] ∉ entries

namespace PlainMap

def empty : PlainMap := ⟨∅, Finmap.notMem_empty⟩

def set (m : PlainMap) (key value : Bytes) : Status × PlainMap :=
  if hkey : key = [] then (ShardedKV.emptyKey, m)
  else
    (.Ok, ⟨m.entries.insert key value, fun h =>
      (Finmap.mem_insert.mp h).elim (fun he => hkey he.symm) m.nonEmpty⟩)

def get (m : PlainMap) (key : Bytes) : Except Status Bytes :=
  if key = [] then .error ShardedKV.emptyKey
  else (m.entries.lookup key).elim (.error ShardedKV.keyNotFound) .ok

def delete (m : PlainMap) (key : Bytes) : Status × PlainMap :=
  if key = [] then (ShardedKV.emptyKey, m)
  else if key ∈ m.entries then
    (.Ok, ⟨m.entries.erase key, fun h => m.nonEmpty (Finmap.mem_erase.mp h).2⟩)
  else (ShardedKV.keyNotFound, m)

/-- The number of keys. -/
def size (m : PlainMap) : Nat := m.entries.keys.card

def apply (m : PlainMap) : StoreOp → StoreAnswer × PlainMap
  | .set key value => (.status (m.set key value).1, (m.set key value).2)
  | .get key => (.value (m.get key), m)
  | .delete key => (.status (m.delete key).1, (m.delete key).2)

/-- The keys of the map are the keys that `get` finds. -/
theorem get_ok_iff (m : PlainMap) (key : Bytes) :
    (∃ value, m.get key = .ok value) ↔ key ∈ m.entries.keys := by
  unfold get
  rw [Finmap.mem_keys]
  by_cases hkey : key = []
  · subst hkey
    simp [m.nonEmpty]
  · rw [if_neg hkey, Finmap.mem_iff]
    cases m.entries.lookup key with
    | none => simp
    | some value => simp

end PlainMap

/-! ## The representation -/

namespace ShardedKV

/-- The shards hold the entries of the map, each in the shard of its key. -/
def Holds (kv : ShardedKV) (m : PlainMap) : Prop := Splits kv.shardFor kv.shards m.entries

theorem holds_empty (hash : Bytes → Nat) : (empty hash).Holds PlainMap.empty := splits_empty _

variable {kv : ShardedKV} {m : PlainMap}

theorem Holds.set (h : kv.Holds m) (key value : Bytes) :
    (kv.set key value).1 = (m.set key value).1 ∧
      (kv.set key value).2.Holds (m.set key value).2 := by
  unfold ShardedKV.set PlainMap.set
  by_cases hkey : key = []
  · rw [if_pos hkey, dif_pos hkey]
    exact ⟨rfl, h⟩
  · rw [if_neg hkey, dif_neg hkey]
    exact ⟨rfl, Splits.insert h key value⟩

theorem Holds.get (h : kv.Holds m) (key : Bytes) : kv.get key = m.get key := by
  unfold ShardedKV.get PlainMap.get
  rw [Splits.lookup h key]
  cases m.entries.lookup key <;> rfl

theorem Holds.delete (h : kv.Holds m) (key : Bytes) :
    (kv.delete key).1 = (m.delete key).1 ∧ (kv.delete key).2.Holds (m.delete key).2 := by
  unfold ShardedKV.delete PlainMap.delete
  by_cases hkey : key = []
  · rw [if_pos hkey, if_pos hkey]
    exact ⟨rfl, h⟩
  · rw [if_neg hkey, if_neg hkey]
    simp only [Splits.lookup h key]
    by_cases hmem : key ∈ m.entries
    · obtain ⟨value, hvalue⟩ := Finmap.mem_iff.mp hmem
      rw [if_pos hmem, hvalue]
      exact ⟨rfl, Splits.erase h key⟩
    · rw [if_neg hmem, Finmap.lookup_eq_none.mpr hmem]
      exact ⟨rfl, h⟩

/-- **Every operation answers as the map does and keeps the representation.** -/
theorem holds_simulates : Simulates ShardedKV.apply PlainMap.apply Holds where
  answer h op := by
    cases op with
    | set key value => exact congrArg StoreAnswer.status (h.set key value).1
    | get key => exact congrArg StoreAnswer.value (h.get key)
    | delete key => exact congrArg StoreAnswer.status (h.delete key).1
  next h op := by
    cases op with
    | set key value => exact (h.set key value).2
    | get key => exact h
    | delete key => exact (h.delete key).2

/-! ## Size -/

theorem size_eq_sum (kv : ShardedKV) : kv.size = ∑ i, (kv.shards i).keys.card := by
  have hcard : ∀ i, (kv.shards i).entries.card = (kv.shards i).keys.card := by
    intro i
    exact (Multiset.card_map _ _).symm
  unfold size
  rw [Fin.sum_univ_def, List.sum_eq_foldl, List.foldl_map]
  simp only [hcard]

/-- The shards together have as many entries as the map has keys. -/
theorem Holds.size (h : kv.Holds m) : kv.size = m.size := by
  rw [size_eq_sum]
  exact Splits.sum_card h

/-- `Size` is the number of the keys that `Get` finds. -/
theorem Holds.size_eq_ncard (h : kv.Holds m) :
    kv.size = Set.ncard {key | ∃ value, kv.get key = .ok value} := by
  have hkeys : {key | ∃ value, kv.get key = .ok value} = (m.entries.keys : Set Bytes) := by
    ext key
    rw [Set.mem_ofPred_eq, h.get, m.get_ok_iff]
    rfl
  rw [h.size, hkeys, Set.ncard_coe_finset]
  rfl

/-- **The sharded store is a plain map**, whatever the hash function: in every sequence of `Set`,
`Get` and `Delete`, every answer, and `Size` after every step, are those of one finite map over
non-empty keys, and `Size` is the number of distinct keys that are present.  An empty key is
rejected and leaves the store as it was. -/
theorem sharded_store_is_plain_map (hash : Bytes → Nat) (ops : List StoreOp) :
    transcript ShardedKV.apply ShardedKV.size (empty hash) ops =
        transcript PlainMap.apply PlainMap.size PlainMap.empty ops ∧
      (after ShardedKV.apply (empty hash) ops).size = Set.ncard
        {key | ∃ value, (after ShardedKV.apply (empty hash) ops).get key = .ok value} ∧
      ∀ (kv : ShardedKV) (value : Bytes),
        kv.set [] value = (emptyKey, kv) ∧ kv.get [] = .error emptyKey ∧
          kv.delete [] = (emptyKey, kv) := by
  refine ⟨?_, ?_, fun kv value => ⟨rfl, rfl, rfl⟩⟩
  · exact holds_simulates.transcript_eq Holds.size ops (holds_empty hash)
  · exact (holds_simulates.after ops (holds_empty hash)).size_eq_ncard

end ShardedKV

end NeuralKV
