import Mathlib.Data.Finmap

/-!
# Status values and the sharded key-value store

Model of `src/common/status.h`, `src/common/result.h` and `src/storage/sharded_kv.cpp`.

* `Status` / `ErrorCode` — outcome of an operation, with the message the code attaches.
* `ShardedKV` — 256 independently locked shards, each an unordered map; a key lives in the
  shard `hash key % 256`.  `std::hash` is implementation defined, so the store carries the hash
  function of its process; nothing is assumed of it.

An unordered map is a `Finmap`: contents without an order.  The locks do not appear: every
operation holds one shard lock from its lookup to its last access.
-/

set_option autoImplicit false

namespace NeuralKV

/-- `std::string` and byte buffers. -/
abbrev Bytes := List UInt8

inductive ErrorCode where
  | kOk
  | kNotFound
  | kInvalidArgument
  | kIOError
  | kInternal
  deriving DecidableEq, Repr

structure Status where
  code : ErrorCode
  message : String
  deriving DecidableEq, Repr

/-- `Status::Ok`. -/
def Status.Ok : Status := ⟨.kOk, ""⟩

/-- `Status::ok`. -/
def Status.ok (s : Status) : Bool := s.code == .kOk

@[simp] theorem Status.ok_Ok : Status.Ok.ok = true := rfl

/-- `ShardedKV::kShardCount`. -/
def kShardCount : Nat := 256

structure ShardedKV where
  hash : Bytes → Nat
  shards : Fin kShardCount → Finmap (fun _ : Bytes => Bytes)

namespace ShardedKV

/-- A store without keys. -/
def empty (hash : Bytes → Nat) : ShardedKV := ⟨hash, fun _ => ∅⟩

/-- `ShardedKV::ShardFor`. -/
def shardFor (kv : ShardedKV) (key : Bytes) : Fin kShardCount :=
  ⟨kv.hash key % kShardCount, Nat.mod_lt _ (by decide)⟩

def emptyKey : Status := ⟨.kInvalidArgument, "key must not be empty"⟩

def keyNotFound : Status := ⟨.kNotFound, "key not found"⟩

/-- `ShardedKV::Set`. -/
def set (kv : ShardedKV) (key value : Bytes) : Status × ShardedKV :=
  if key = [] then (emptyKey, kv)
  else
    let i := kv.shardFor key
    (.Ok, { kv with shards := Function.update kv.shards i ((kv.shards i).insert key value) })

/-- `ShardedKV::Get`. -/
def get (kv : ShardedKV) (key : Bytes) : Except Status Bytes :=
  if key = [] then .error emptyKey
  else
    match (kv.shards (kv.shardFor key)).lookup key with
    | none => .error keyNotFound
    | some value => .ok value

/-- `ShardedKV::Delete`. -/
def delete (kv : ShardedKV) (key : Bytes) : Status × ShardedKV :=
  if key = [] then (emptyKey, kv)
  else
    let i := kv.shardFor key
    match (kv.shards i).lookup key with
    | none => (keyNotFound, kv)
    | some _ => (.Ok, { kv with shards := Function.update kv.shards i ((kv.shards i).erase key) })

/-- `ShardedKV::Size`: the loop over the shards.  `total` has 64 bits, more than memory has keys. -/
def size (kv : ShardedKV) : Nat :=
  (List.finRange kShardCount).foldl (fun total i => total + (kv.shards i).entries.card) 0

@[simp] theorem set_hash (kv : ShardedKV) (key value : Bytes) :
    (kv.set key value).2.hash = kv.hash := by
  unfold set
  split <;> rfl

@[simp] theorem delete_hash (kv : ShardedKV) (key : Bytes) :
    (kv.delete key).2.hash = kv.hash := by
  unfold delete
  split
  · rfl
  · simp only
    split <;> rfl

/-! ## Contents -/

/-- What the store holds under a key, whatever shard the key is in. -/
def contents (kv : ShardedKV) (key : Bytes) : Option Bytes :=
  (kv.shards (kv.shardFor key)).lookup key

@[simp] theorem contents_empty (hash : Bytes → Nat) : (empty hash).contents = fun _ => none := by
  funext key
  simp [contents, empty]

variable (kv : ShardedKV) {key : Bytes}

theorem get_eq (hkey : key ≠ []) :
    kv.get key = match kv.contents key with
      | none => .error keyNotFound
      | some value => .ok value := by
  unfold get
  rw [if_neg hkey]
  rfl

/-- A change of one shard that concerns one key of it is a change of the contents at that key. -/
theorem contents_update {shard : Finmap (fun _ : Bytes => Bytes)} {value : Option Bytes}
    (hself : shard.lookup key = value)
    (hother : ∀ k, k ≠ key → shard.lookup k = (kv.shards (kv.shardFor key)).lookup k) :
    ({ kv with shards := Function.update kv.shards (kv.shardFor key) shard } : ShardedKV).contents =
      Function.update kv.contents key value := by
  funext k
  show (Function.update kv.shards (kv.shardFor key) shard (kv.shardFor k)).lookup k = _
  by_cases hk : k = key
  · subst hk
    rw [Function.update_self, Function.update_self, hself]
  · rw [Function.update_of_ne hk]
    by_cases hshard : kv.shardFor k = kv.shardFor key
    · rw [hshard, Function.update_self, hother k hk, ← hshard]
      rfl
    · rw [Function.update_of_ne hshard]
      rfl

theorem set_eq (hkey : key ≠ []) (value : Bytes) :
    (kv.set key value).1 = .Ok ∧
      (kv.set key value).2.contents = Function.update kv.contents key (some value) := by
  unfold set
  rw [if_neg hkey]
  refine ⟨rfl, kv.contents_update ?_ ?_⟩
  · simp
  · intro k hk
    simp [Finmap.lookup_insert_of_ne, hk]

theorem delete_eq (hkey : key ≠ []) :
    (kv.delete key).1 = (if (kv.contents key).isSome then .Ok else keyNotFound) ∧
      (kv.delete key).2.contents = Function.update kv.contents key none := by
  unfold delete
  rw [if_neg hkey]
  cases hlookup : (kv.shards (kv.shardFor key)).lookup key with
  | none =>
    have habsent : kv.contents key = none := hlookup
    simp only [hlookup, habsent, Option.isSome_none, Bool.false_eq_true, if_false]
    refine ⟨trivial, ?_⟩
    rw [← habsent, Function.update_eq_self]
  | some value =>
    have hheld : kv.contents key = some value := hlookup
    simp only [hlookup, hheld, Option.isSome_some, if_true]
    refine ⟨trivial, kv.contents_update ?_ ?_⟩
    · simp
    · intro k hk
      simp [Finmap.lookup_erase_ne, hk]

end ShardedKV

end NeuralKV
