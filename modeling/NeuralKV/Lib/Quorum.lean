import Mathlib.Data.List.Sort
import Mathlib.Data.Set.Basic

/-!
# Quorum systems and order statistics

* `QuorumSystem` — which sets of nodes are quorums; any two of them meet.
* `majorities` — the quorum system of the strict majorities of a duplicate-free member list,
  with the threshold `length / 2 + 1`.
* `le_nthLargest_iff` — the element that stands `m` places before the end of the sorted list is the
  largest number that at least `m` elements of the list reach.

Principal results: `majority_inter` (pigeonhole on two duplicate-free sublists) and
`le_nthLargest_iff`.
-/

set_option autoImplicit false

namespace Quorum

variable {Node : Type}

/-- An upward closed family of sets of nodes any two of which have a common member. -/
structure QuorumSystem (Node : Type) where
  quorum : Set (Set Node)
  inter : ∀ P ∈ quorum, ∀ Q ∈ quorum, ∃ v, v ∈ P ∧ v ∈ Q
  mono : ∀ P ∈ quorum, ∀ Q : Set Node, P ⊆ Q → Q ∈ quorum

/-- The threshold of a strict majority of `n` members. -/
def majority (n : Nat) : Nat := n / 2 + 1

/-- `Q` contains a strict majority of the members: a duplicate-free list of at least
`majority members.length` of them. -/
def IsMajority (members : List Node) (Q : Set Node) : Prop :=
  ∃ l : List Node, l.Nodup ∧ l ⊆ members ∧ majority members.length ≤ l.length ∧ ∀ v ∈ l, v ∈ Q

theorem IsMajority.mono {members : List Node} {P Q : Set Node} (h : IsMajority members P)
    (hPQ : ∀ v ∈ members, v ∈ P → v ∈ Q) : IsMajority members Q := by
  obtain ⟨l, hnd, hsub, hlen, hl⟩ := h
  exact ⟨l, hnd, hsub, hlen, fun v hv => hPQ v (hsub hv) (hl v hv)⟩

theorem exists_common_of_length_lt {members l₁ l₂ : List Node} (h₁ : l₁.Nodup) (h₂ : l₂.Nodup)
    (s₁ : l₁ ⊆ members) (s₂ : l₂ ⊆ members) (hlen : members.length < l₁.length + l₂.length) :
    ∃ v, v ∈ l₁ ∧ v ∈ l₂ := by
  refine Classical.byContradiction fun hno => ?_
  have hdisj : List.Disjoint l₁ l₂ := fun v hv₁ hv₂ => hno ⟨v, hv₁, hv₂⟩
  have hnd : (l₁ ++ l₂).Nodup := List.nodup_append'.mpr ⟨h₁, h₂, hdisj⟩
  have hsub : l₁ ++ l₂ ⊆ members := List.append_subset.mpr ⟨s₁, s₂⟩
  have hle := (List.subperm_of_subset hnd hsub).length_le
  rw [List.length_append] at hle
  omega

/-- **Any two majorities meet.** -/
theorem majority_inter {members : List Node} {P Q : Set Node} (hP : IsMajority members P)
    (hQ : IsMajority members Q) : ∃ v, v ∈ P ∧ v ∈ Q := by
  obtain ⟨l₁, hnd₁, hsub₁, hlen₁, hl₁⟩ := hP
  obtain ⟨l₂, hnd₂, hsub₂, hlen₂, hl₂⟩ := hQ
  unfold majority at hlen₁ hlen₂
  obtain ⟨v, hv₁, hv₂⟩ := exists_common_of_length_lt hnd₁ hnd₂ hsub₁ hsub₂ (by omega)
  exact ⟨v, hl₁ v hv₁, hl₂ v hv₂⟩

/-- The strict majorities of a member list. -/
def majorities (members : List Node) : QuorumSystem Node where
  quorum := { Q | IsMajority members Q }
  inter := fun _ hP _ hQ => majority_inter hP hQ
  mono := fun _ hP _ hPQ => IsMajority.mono hP fun _ _ hv => hPQ hv

/-! ## Order statistics -/

/-- The element `m` places before the end of the sorted list. -/
def nthLargest (l : List Nat) (m : Nat) : Option Nat :=
  (l.insertionSort (· ≤ ·))[l.length - m]?

theorem le_of_mem_drop_sorted {s : List Nat} (hs : s.Pairwise (· ≤ ·)) {i c : Nat}
    (hc : s[i]? = some c) : ∀ x ∈ s.drop i, c ≤ x := by
  obtain ⟨hi, rfl⟩ := List.getElem?_eq_some_iff.mp hc
  intro x hx
  rw [List.drop_eq_getElem_cons hi] at hx
  rcases List.mem_cons.mp hx with rfl | hx
  · exact Nat.le_refl _
  · have hd := hs.sublist (List.drop_sublist i s)
    rw [List.drop_eq_getElem_cons hi] at hd
    exact (List.pairwise_cons.mp hd).1 x hx

/-- **At least `m` elements reach the `m`-th largest.** -/
theorem le_countP_nthLargest {l : List Nat} {m c : Nat} (hm : m ≤ l.length)
    (hc : nthLargest l m = some c) : m ≤ l.countP (fun x => decide (c ≤ x)) := by
  unfold nthLargest at hc
  have hsorted : (l.insertionSort (· ≤ ·)).Pairwise (· ≤ ·) := List.pairwise_insertionSort _ l
  have hperm := List.perm_insertionSort (· ≤ ·) l
  generalize l.insertionSort (· ≤ ·) = s at hc hsorted hperm
  have hdrop := le_of_mem_drop_sorted hsorted hc
  have hcount : (s.drop (l.length - m)).countP (fun x => decide (c ≤ x)) =
      (s.drop (l.length - m)).length := by
    rw [List.countP_eq_length]
    intro x hx
    exact decide_eq_true (hdrop x hx)
  have hle : (s.drop (l.length - m)).countP (fun x => decide (c ≤ x)) ≤
      s.countP (fun x => decide (c ≤ x)) :=
    (List.drop_sublist (l.length - m) s).countP_le
  rw [hcount, List.length_drop, hperm.length_eq] at hle
  rw [← hperm.countP_eq]
  omega

theorem le_of_mem_take_sorted {s : List Nat} (hs : s.Pairwise (· ≤ ·)) {i c : Nat}
    (hc : s[i]? = some c) : ∀ x ∈ s.take (i + 1), x ≤ c := by
  obtain ⟨hi, rfl⟩ := List.getElem?_eq_some_iff.mp hc
  intro x hx
  obtain ⟨j, hj, rfl⟩ := List.getElem_of_mem hx
  rw [List.length_take] at hj
  rw [List.getElem_take]
  rcases Nat.lt_or_ge j i with hlt | hge
  · exact List.pairwise_iff_getElem.mp hs j i (by omega) hi hlt
  · have hji : j = i := by omega
    subst hji
    exact Nat.le_refl _

theorem countP_lt_of_nthLargest_lt {l : List Nat} {m c N : Nat} (h0 : 0 < m) (hm : m ≤ l.length)
    (hc : nthLargest l m = some c) (hN : c < N) : l.countP (fun x => decide (N ≤ x)) < m := by
  unfold nthLargest at hc
  have hsorted : (l.insertionSort (· ≤ ·)).Pairwise (· ≤ ·) := List.pairwise_insertionSort _ l
  have hperm := List.perm_insertionSort (· ≤ ·) l
  generalize l.insertionSort (· ≤ ·) = s at hc hsorted hperm
  have htake := le_of_mem_take_sorted hsorted hc
  have hnone : (s.take (l.length - m + 1)).countP (fun x => decide (N ≤ x)) = 0 := by
    rw [List.countP_eq_zero]
    intro x hx
    have := htake x hx
    simp only [decide_eq_true_eq]
    omega
  have hle : (s.drop (l.length - m + 1)).countP (fun x => decide (N ≤ x)) ≤
      (s.drop (l.length - m + 1)).length := List.countP_le_length
  rw [List.length_drop, hperm.length_eq] at hle
  rw [← hperm.countP_eq, ← List.take_append_drop (l.length - m + 1) s, List.countP_append, hnone]
  omega

/-- **The `m`-th largest is the largest number that `m` elements reach.** -/
theorem le_nthLargest_iff {l : List Nat} {m c N : Nat} (h0 : 0 < m) (hm : m ≤ l.length)
    (hc : nthLargest l m = some c) : N ≤ c ↔ m ≤ l.countP (fun x => decide (N ≤ x)) := by
  constructor
  · intro hN
    refine Nat.le_trans (le_countP_nthLargest hm hc) (List.countP_mono_left ?_)
    intro x _ hx
    have := of_decide_eq_true hx
    exact decide_eq_true (by omega)
  · intro hcount
    by_contra hlt
    have := countP_lt_of_nthLargest_lt h0 hm hc (by omega : c < N)
    omega

theorem exists_nthLargest {l : List Nat} {m : Nat} (h0 : 0 < m) (hm : m ≤ l.length) :
    ∃ c, nthLargest l m = some c := by
  refine ⟨_, List.getElem?_eq_getElem ?_⟩
  rw [List.length_insertionSort]
  omega

end Quorum
