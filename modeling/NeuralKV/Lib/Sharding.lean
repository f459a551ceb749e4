import Mathlib.Algebra.BigOperators.Fin
import Mathlib.Data.Finmap
import Mathlib.Data.Fintype.BigOperators

/-!
# A finite map split into shards

A finite map is spread over shards by a function `home` that says in which shard a key lives.

* `Splits` — the shards hold the entries of a map, each in the home of its key and nowhere else.
* `Splits.insert`, `Splits.erase` — a change of the map is a change of one shard.
* `Splits.sum_card` — **the sizes of the shards add up to the number of keys** of the map.
-/

set_option autoImplicit false

namespace Sharding

variable {α ι : Type} {β : α → Type} [DecidableEq α] [DecidableEq ι]

/-- Each entry of `m` is in the home of its key, and no shard holds anything else. -/
def Splits (home : α → ι) (shards : ι → Finmap β) (m : Finmap β) : Prop :=
  ∀ i key, (shards i).lookup key = if home key = i then m.lookup key else none

theorem splits_empty (home : α → ι) : Splits home (fun _ => ∅) (∅ : Finmap β) := by
  intro i key
  simp

variable {home : α → ι} {shards : ι → Finmap β} {m : Finmap β}

theorem Splits.lookup (h : Splits home shards m) (key : α) :
    (shards (home key)).lookup key = m.lookup key := by
  rw [h, if_pos rfl]

/-- A change of the map at one key, made in the home of that key. -/
theorem Splits.update (h : Splits home shards m) {key : α} {shard m' : Finmap β}
    (hself : shard.lookup key = m'.lookup key)
    (hshard : ∀ k, k ≠ key → shard.lookup k = (shards (home key)).lookup k)
    (hmap : ∀ k, k ≠ key → m'.lookup k = m.lookup k) :
    Splits home (Function.update shards (home key) shard) m' := by
  intro i k
  by_cases hk : k = key
  · subst hk
    by_cases hi : home k = i
    · subst hi
      rw [Function.update_self, if_pos rfl, hself]
    · rw [Function.update_of_ne (Ne.symm hi), h, if_neg hi, if_neg hi]
  · rw [hmap k hk, ← h i k]
    by_cases hi : i = home key
    · subst hi
      rw [Function.update_self, hshard k hk]
    · rw [Function.update_of_ne hi]

theorem Splits.insert (h : Splits home shards m) (key : α) (value : β key) :
    Splits home (Function.update shards (home key) ((shards (home key)).insert key value))
      (m.insert key value) := by
  refine h.update ?_ (fun k hk => Finmap.lookup_insert_of_ne _ hk)
    (fun k hk => Finmap.lookup_insert_of_ne _ hk)
  rw [Finmap.lookup_insert, Finmap.lookup_insert]

theorem Splits.erase (h : Splits home shards m) (key : α) :
    Splits home (Function.update shards (home key) ((shards (home key)).erase key))
      (m.erase key) := by
  refine h.update ?_ (fun k hk => Finmap.lookup_erase_ne hk) (fun k hk => Finmap.lookup_erase_ne hk)
  rw [Finmap.lookup_erase, Finmap.lookup_erase]

/-- A shard holds the keys that live in it. -/
theorem Splits.keys (h : Splits home shards m) (i : ι) :
    (shards i).keys = m.keys.filter fun key => home key = i := by
  ext key
  rw [Finset.mem_filter, Finmap.mem_keys, Finmap.mem_keys, ← Finmap.lookup_isSome,
    ← Finmap.lookup_isSome, h]
  by_cases hi : home key = i
  · simp [hi]
  · simp [hi]

/-- **Every key is counted once**, in its home. -/
theorem Splits.sum_card [Fintype ι] (h : Splits home shards m) :
    ∑ i, (shards i).keys.card = m.keys.card := by
  rw [Finset.card_eq_sum_card_fiberwise fun key _ => Finset.mem_univ (home key)]
  refine Finset.sum_congr rfl fun i _ => ?_
  rw [h.keys]

end Sharding
