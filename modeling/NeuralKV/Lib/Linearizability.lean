import Mathlib.Data.List.Induction

/-!
# Linearizability of register histories

Operations on one register, each with the time of its invocation and of its completion.

* `lastWritten`, `Legal` — what a register holds after a sequence of operations; every read of a
  legal sequence returns it.  `legal_iff` reads a sequence from its head.
* `Linearization` — a total order of the operations that respects real time and is legal.  Whether a
  given order is one can be decided, pair by pair (`linearization_iff`).
* `Linearization.read_source` — **what a linearization says about a read**, pair by pair: some write
  of the value that was read was not invoked after the read, and no other write lies, in real time,
  between the two.
-/

set_option autoImplicit false

namespace Linearizability

variable {Op V : Type}

/-- What an operation does, with the value it writes or returns. -/
inductive Access (V : Type) where
  | write (v : V)
  | read (v : V)
  deriving DecidableEq, Repr

namespace Access

/-- The register after one operation. -/
def apply (held : Option V) : Access V → Option V
  | .write v => some v
  | .read _ => held

/-- A read returns what the register holds. -/
def Fits (held : Option V) : Access V → Prop
  | .write _ => True
  | .read v => held = some v

instance [DecidableEq V] (held : Option V) : (a : Access V) → Decidable (a.Fits held)
  | .write _ => instDecidableTrue
  | .read v => inferInstanceAs (Decidable (held = some v))

end Access

/-! ## Sequences -/

section Sequences

variable (access : Op → Access V)

/-- The register after the operations, from what it held. -/
def holdsAfter (held : Option V) (ops : List Op) : Option V :=
  ops.foldl (fun held op => (access op).apply held) held

/-- The value of the last write, if there is one. -/
def lastWritten (ops : List Op) : Option V := holdsAfter access none ops

/-- Every read returns the value of the latest write before it. -/
def Legal (order : List Op) : Prop :=
  ∀ (i : Nat) op, order[i]? = some op → (access op).Fits (lastWritten access (order.take i))

/-- The same from the head of the sequence, with a register that may hold something already. -/
def LegalFrom : Option V → List Op → Prop
  | _, [] => True
  | held, op :: ops => (access op).Fits held ∧ LegalFrom ((access op).apply held) ops

theorem legalFrom_iff (order : List Op) (held : Option V) : LegalFrom access held order ↔
    ∀ (i : Nat) op, order[i]? = some op →
      (access op).Fits (holdsAfter access held (order.take i)) := by
  induction order generalizing held with
  | nil => simp [LegalFrom]
  | cons op ops ih =>
    rw [LegalFrom, ih]
    constructor
    · rintro ⟨hhead, htail⟩ i op' hi
      cases i with
      | zero =>
        cases hi
        exact hhead
      | succ i => exact htail i op' hi
    · intro h
      exact ⟨h 0 op rfl, fun i op' hi => h (i + 1) op' hi⟩

theorem legal_iff {order : List Op} : Legal access order ↔ LegalFrom access none order :=
  (legalFrom_iff access order none).symm

instance decidableLegalFrom [DecidableEq V] :
    (held : Option V) → (order : List Op) → Decidable (LegalFrom access held order)
  | _, [] => instDecidableTrue
  | held, op :: ops =>
    have := decidableLegalFrom ((access op).apply held) ops
    inferInstanceAs (Decidable ((access op).Fits held ∧ LegalFrom access _ ops))

variable {access}

/-- The value that a register holds is that of its latest write. -/
theorem latest_write {ops : List Op} {v : V} (h : lastWritten access ops = some v) :
    ∃ i : Nat, ∃ w, ops[i]? = some w ∧ access w = .write v ∧
      ∀ (j : Nat) op u, i < j → ops[j]? = some op → access op ≠ .write u := by
  induction ops using List.reverseRecOn with
  | nil => cases h
  | append_singleton ops last ih =>
    have hlast : (access last).apply (lastWritten access ops) = some v := by
      simpa [lastWritten, holdsAfter] using h
    cases haccess : access last with
    | write u =>
      rw [haccess] at hlast
      cases hlast
      refine ⟨ops.length, last, by simp, haccess, ?_⟩
      intro j op u hj hop
      rw [List.getElem?_eq_none (by simp; omega)] at hop
      cases hop
    | read u =>
      rw [haccess] at hlast
      obtain ⟨i, w, hi, hw, hlatest⟩ := ih hlast
      have hlt : i < ops.length := (List.getElem?_eq_some_iff.mp hi).1
      refine ⟨i, w, ?_, hw, ?_⟩
      · rw [List.getElem?_append_left hlt]
        exact hi
      · intro j op u' hj hop
        by_cases hin : j < ops.length
        · rw [List.getElem?_append_left hin] at hop
          exact hlatest j op u' hj hop
        · -- behind the old operations there is only the read
          rw [List.getElem?_append_right (Nat.le_of_not_lt hin)] at hop
          obtain rfl := List.mem_singleton.mp (List.mem_of_getElem? hop)
          rw [haccess]
          intro hwrite
          cases hwrite

end Sequences

/-! ## Linearizations -/

/-- A total order of `ops` that respects real time and in which every read returns the value of the
latest write before it. -/
structure Linearization (start finish : Op → Nat) (access : Op → Access V) (ops order : List Op) :
    Prop where
  total : order.Perm ops
  realTime : ∀ (i j : Nat) (a b : Op), order[i]? = some a → order[j]? = some b →
    finish a < start b → i < j
  legal : Legal access order

variable {start finish : Op → Nat} {access : Op → Access V} {ops order : List Op}

/-- Real time is respected if no operation ends before itself or one in front of it begins. -/
theorem linearization_iff : Linearization start finish access ops order ↔
    order.Perm ops ∧ (∀ op ∈ order, ¬ finish op < start op) ∧
      order.Pairwise (fun a b => ¬ finish b < start a) ∧ LegalFrom access none order := by
  constructor
  · intro h
    refine ⟨h.total, fun op hop hlt => ?_, ?_, (legal_iff access).mp h.legal⟩
    · obtain ⟨i, hi⟩ := List.mem_iff_getElem?.mp hop
      exact absurd (h.realTime i i op op hi hi hlt) (Nat.lt_irrefl i)
    · refine List.pairwise_iff_getElem.mpr fun i j hi hj hij hlt => ?_
      have hji := h.realTime j i _ _ (List.getElem?_eq_getElem hj) (List.getElem?_eq_getElem hi) hlt
      omega
  · rintro ⟨htotal, hinterval, hpairs, hlegal⟩
    refine ⟨htotal, fun i j a b hi hj hlt => ?_, (legal_iff access).mpr hlegal⟩
    obtain ⟨hi', rfl⟩ := List.getElem?_eq_some_iff.mp hi
    obtain ⟨hj', rfl⟩ := List.getElem?_eq_some_iff.mp hj
    rcases Nat.lt_trichotomy i j with hij | rfl | hji
    · exact hij
    · exact absurd hlt (hinterval _ (List.getElem_mem hi'))
    · exact absurd hlt (List.pairwise_iff_getElem.mp hpairs j i hj' hi' hji)

instance [DecidableEq Op] [DecidableEq V] :
    Decidable (Linearization start finish access ops order) :=
  decidable_of_iff _ linearization_iff.symm

/-- **The source of a read**: a write of the value that was read, not invoked after the read was
over, and not overwritten before the read began. -/
theorem Linearization.read_source (h : Linearization start finish access ops order) {g : Op}
    (hg : g ∈ ops) {v : V} (hread : access g = .read v) :
    ∃ w ∈ ops, access w = .write v ∧ ¬ finish g < start w ∧
      ∀ w' ∈ ops, ∀ u, access w' = .write u → finish w < start w' → ¬ finish w' < start g := by
  obtain ⟨j, hj⟩ := List.mem_iff_getElem?.mp (h.total.mem_iff.mpr hg)
  have hheld := h.legal j g hj
  rw [hread] at hheld
  obtain ⟨i, w, hi, hw, hlatest⟩ := latest_write hheld
  have hij : i < j := by
    have hlen := (List.getElem?_eq_some_iff.mp hi).1
    rw [List.length_take] at hlen
    omega
  rw [List.getElem?_take_of_lt hij] at hi
  refine ⟨w, h.total.mem_iff.mp (List.mem_of_getElem? hi), hw, ?_, ?_⟩
  · intro hafter
    have hji := h.realTime j i g w hj hi hafter
    omega
  · intro w' hw' u hwrite hnewer hbefore
    obtain ⟨k, hk⟩ := List.mem_iff_getElem?.mp (h.total.mem_iff.mpr hw')
    have hik := h.realTime i k w w' hi hk hnewer
    have hkj := h.realTime k j w' g hk hj hbefore
    refine hlatest k w' u hik ?_ hwrite
    rw [List.getElem?_take_of_lt hkj]
    exact hk

end Linearizability
