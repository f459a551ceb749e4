import NeuralKV.Lib.ConsensusSafety

/-!
# What a receiver's scan makes of a log

`Consensus.overwrite` compares entries with a log from a position on.

* `overwrite_of_agree`, `overwrite_of_conflict` — the two shapes of its result: nothing is cut and
  what lies past the end is appended, or the log is cut at the first disagreement.
* `agreesFrom_overwrite` — the scanned log has the entries, so a second scan finds nothing to change.
* `overwrite_keeps` — the part of the log that a scan does not disagree with stays.
* `spliced_comm` — two pieces of one log can be spliced in either order.
-/

set_option autoImplicit false

namespace Consensus

variable {Entry : Type} {term : Entry → Nat} {L : List Entry}

/-! ## The result of a scan -/

/-- Where `es`, placed at position `i`, overlaps `L`, the terms are the same. -/
def AgreesFrom (term : Entry → Nat) (L : List Entry) (i : Nat) (es : List Entry) : Prop :=
  ∀ j e a, es[j]? = some e → L[i + j]? = some a → term a = term e

theorem AgreesFrom.nil (i : Nat) : AgreesFrom term L i [] := by
  intro j e a he
  simp at he

theorem AgreesFrom.cons {i : Nat} {e : Entry} {es : List Entry}
    (he : ∀ a, L[i]? = some a → term a = term e) (h : AgreesFrom term L (i + 1) es) :
    AgreesFrom term L i (e :: es) := by
  intro j x a hx ha
  cases j with
  | zero =>
    cases hx
    exact he a ha
  | succ j =>
    refine h j x a hx ?_
    rw [← ha]
    congr 1
    omega

theorem AgreesFrom.tail {i : Nat} {e : Entry} {es : List Entry}
    (h : AgreesFrom term L i (e :: es)) : AgreesFrom term L (i + 1) es := by
  intro j x a hx ha
  refine h (j + 1) x a hx ?_
  rw [← ha]
  congr 1
  omega

/-- **Nothing is cut where the terms agree**: what lies past the end of the log is appended. -/
theorem overwrite_of_agree : ∀ {es : List Entry} {i : Nat}, i ≤ L.length →
    AgreesFrom term L i es → overwrite term L i es = L ++ es.drop (L.length - i)
  | [], i, _, _ => by simp [overwrite]
  | e :: es, i, hi, h => by
    unfold overwrite
    cases hl : L[i]? with
    | none =>
      have hlen := List.getElem?_eq_none_iff.mp hl
      have h0 : L.length - i = 0 := by omega
      rw [h0, List.drop_zero]
    | some a =>
      have hlt := (List.getElem?_eq_some_iff.mp hl).1
      have hsucc : L.length - i = L.length - (i + 1) + 1 := by omega
      simp only [h 0 e a rfl hl, if_true]
      rw [overwrite_of_agree hlt h.tail, hsucc, List.drop_succ_cons]

/-- **The log is cut at the first disagreement**, and the entries from there on take the place of
the rest. -/
theorem overwrite_of_conflict : ∀ {es : List Entry} {i j : Nat} {e a : Entry}, es[j]? = some e →
    L[i + j]? = some a → term a ≠ term e → AgreesFrom term L i (es.take j) →
    overwrite term L i es = L.take (i + j) ++ es.drop j
  | [], _, j, _, _, he, _, _, _ => by simp at he
  | x :: es, i, 0, e, a, he, ha, hne, _ => by
    cases he
    rw [Nat.add_zero] at ha
    unfold overwrite
    simp only [ha, hne, if_false, Nat.add_zero, List.drop_zero]
  | x :: es, i, j + 1, e, a, he, ha, hne, h => by
    rw [List.take_succ_cons] at h
    have hlt : i < L.length := by
      have := (List.getElem?_eq_some_iff.mp ha).1
      omega
    have hi := List.getElem?_eq_getElem hlt
    have hnext : i + (j + 1) = i + 1 + j := by omega
    rw [hnext] at ha ⊢
    unfold overwrite
    simp only [hi, h 0 x _ rfl hi, if_true]
    rw [List.getElem?_cons_succ] at he
    rw [overwrite_of_conflict he ha hne h.tail, List.drop_succ_cons]

theorem agreesFrom_or_conflict (term : Entry → Nat) (L : List Entry) :
    ∀ (es : List Entry) (i : Nat), AgreesFrom term L i es ∨
      ∃ j e a, es[j]? = some e ∧ L[i + j]? = some a ∧ term a ≠ term e ∧
        AgreesFrom term L i (es.take j) := by
  intro es
  induction es with
  | nil => exact fun i => Or.inl (AgreesFrom.nil i)
  | cons x es ih =>
    intro i
    by_cases hx : ∀ a, L[i]? = some a → term a = term x
    · rcases ih (i + 1) with hagree | ⟨j, e, a, he, ha, hne, hbefore⟩
      · exact Or.inl (hagree.cons hx)
      · refine Or.inr ⟨j + 1, e, a, he, ?_, hne, ?_⟩
        · rw [← ha]
          congr 1
          omega
        · rw [List.take_succ_cons]
          exact hbefore.cons hx
    · push Not at hx
      obtain ⟨a, ha, hne⟩ := hx
      exact Or.inr ⟨0, x, a, rfl, ha, hne, AgreesFrom.nil i⟩

/-! ## The scanned log -/

/-- **After the scan the log has the entries' terms where the entries are**, up to the last one. -/
theorem agreesFrom_overwrite (term : Entry → Nat) (es : List Entry) {i : Nat} (hi : i ≤ L.length) :
    AgreesFrom term (overwrite term L i es) i es ∧
      i + es.length ≤ (overwrite term L i es).length := by
  rcases agreesFrom_or_conflict term L es i with hagree | ⟨j, e, a, he, ha, hne, hbefore⟩
  · rw [overwrite_of_agree hi hagree]
    refine ⟨?_, ?_⟩
    · intro j e a he ha
      by_cases hlt : i + j < L.length
      · rw [List.getElem?_append_left hlt] at ha
        exact hagree j e a he ha
      · rw [List.getElem?_append_right (Nat.le_of_not_lt hlt), List.getElem?_drop,
          show L.length - i + (i + j - L.length) = j by omega, he] at ha
        rw [Option.some.inj ha]
    · rw [List.length_append, List.length_drop]
      omega
  · rw [overwrite_of_conflict he ha hne hbefore]
    have hlen : (L.take (i + j)).length = i + j := by
      have := (List.getElem?_eq_some_iff.mp ha).1
      rw [List.length_take]
      omega
    refine ⟨?_, ?_⟩
    · intro k x b hx hb
      by_cases hk : k < j
      · rw [List.getElem?_append_left (by omega), List.getElem?_take_of_lt (by omega)] at hb
        refine hbefore k x b ?_ hb
        rw [List.getElem?_take_of_lt hk]
        exact hx
      · rw [List.getElem?_append_right (by omega), hlen, List.getElem?_drop,
          show j + (i + k - (i + j)) = k by omega, hx] at hb
        rw [Option.some.inj hb]
    · have hj := (List.getElem?_eq_some_iff.mp he).1
      rw [List.length_append, hlen, List.length_drop]
      omega

/-- **The first `c` entries stay** if the scan agrees with those of them that it reaches. -/
theorem overwrite_keeps {es : List Entry} {i c : Nat} (hi : i ≤ L.length) (hc : c ≤ L.length)
    (h : ∀ j e a, es[j]? = some e → L[i + j]? = some a → i + j < c → term a = term e) :
    (overwrite term L i es).take c = L.take c ∧ c ≤ (overwrite term L i es).length := by
  rcases agreesFrom_or_conflict term L es i with hagree | ⟨j, e, a, he, ha, hne, hbefore⟩
  · rw [overwrite_of_agree hi hagree, List.length_append]
    exact ⟨List.take_append_of_le_length hc, by omega⟩
  · -- a conflict can only lie behind the kept part
    have hcj : c ≤ i + j := Nat.le_of_not_lt fun hlt => hne (h j e a he ha hlt)
    have hlen : (L.take (i + j)).length = i + j := by
      have := (List.getElem?_eq_some_iff.mp ha).1
      rw [List.length_take]
      omega
    rw [overwrite_of_conflict he ha hne hbefore, List.length_append, hlen,
      List.take_append_of_le_length (by omega), List.take_take, Nat.min_eq_left hcj]
    exact ⟨rfl, by omega⟩

theorem take_overwrite {es : List Entry} {i : Nat} (hi : i ≤ L.length) :
    (overwrite term L i es).take i = L.take i :=
  (overwrite_keeps hi hi fun j _ _ _ _ hlt => absurd hlt (by omega)).1

/-! ## Two pieces of one log -/

section Order

variable {B L' : List Entry}

theorem Spliced.of_isPrefix (hs : Spliced term L B L') (h : B <+: L) : L' = L := by
  rcases hs with ⟨_, rfl⟩ | ⟨rfl, hLB | ⟨i, a, b, ha, hb, hne, _⟩⟩
  · rfl
  · exact h.eq_of_length_le hLB.length_le
  · rw [getElem?_of_isPrefix h hb] at ha
    cases ha
    exact absurd rfl hne

theorem Spliced.of_not_isPrefix (hs : Spliced term L B L') (h : ¬ B <+: L) : L' = B := by
  rcases hs with ⟨hBL, _⟩ | ⟨rfl, _⟩
  · exact absurd hBL h
  · rfl

theorem spliced_comm_of_isPrefix {B₁ B₂ M₁ M₂ N₁ N₂ : List Entry} (hB : B₁ <+: B₂)
    (h₁ : Spliced term L B₁ M₁) (h₁₂ : Spliced term M₁ B₂ N₁)
    (h₂ : Spliced term L B₂ M₂) (h₂₁ : Spliced term M₂ B₁ N₂) : N₁ = N₂ := by
  by_cases hL₂ : B₂ <+: L
  · have hL₁ : B₁ <+: L := hB.trans hL₂
    have hM₁ := h₁.of_isPrefix hL₁
    have hM₂ := h₂.of_isPrefix hL₂
    subst hM₁
    subst hM₂
    rw [h₁₂.of_isPrefix hL₂, h₂₁.of_isPrefix hL₁]
  · have hM₂ := h₂.of_not_isPrefix hL₂
    subst hM₂
    rw [h₂₁.of_isPrefix hB]
    by_cases hL₁ : B₁ <+: L
    · have hM₁ := h₁.of_isPrefix hL₁
      subst hM₁
      exact h₁₂.of_not_isPrefix hL₂
    · have hM₁ := h₁.of_not_isPrefix hL₁
      subst hM₁
      by_cases hle : M₂ <+: M₁
      · rw [h₁₂.of_isPrefix hle]
        exact hB.eq_of_length_le hle.length_le
      · exact h₁₂.of_not_isPrefix hle

/-- **Two pieces of one log can be spliced in either order.** -/
theorem spliced_comm {T B₁ B₂ M₁ M₂ N₁ N₂ : List Entry} (hB₁ : B₁ <+: T) (hB₂ : B₂ <+: T)
    (h₁ : Spliced term L B₁ M₁) (h₁₂ : Spliced term M₁ B₂ N₁)
    (h₂ : Spliced term L B₂ M₂) (h₂₁ : Spliced term M₂ B₁ N₂) : N₁ = N₂ := by
  rcases List.prefix_or_prefix_of_prefix hB₁ hB₂ with hB | hB
  · exact spliced_comm_of_isPrefix hB h₁ h₁₂ h₂ h₂₁
  · exact (spliced_comm_of_isPrefix hB h₂ h₂₁ h₁ h₁₂).symm

end Order

/-! ## Matching logs -/

theorem Spliced.logsMatch {T B L' : List Entry} (hs : Spliced term L B L')
    (h : LogsMatch term L T) (hB : B <+: T) : LogsMatch term L' T := by
  rcases hs with ⟨_, rfl⟩ | ⟨rfl, _⟩
  · exact h
  · intro i a b ha hb _
    have hlt := (List.getElem?_eq_some_iff.mp ha).1
    obtain ⟨t, rfl⟩ := hB
    rw [List.take_append_of_le_length hlt]

end Consensus
