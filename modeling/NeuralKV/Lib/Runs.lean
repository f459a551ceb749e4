import Mathlib.Data.List.Basic
import Mathlib.Data.List.Perm.Basic

/-!
# Runs of a transition system

A system is a partial step function: `none` when an action is not possible in a state.

* `Run` — the states reached by steps that all satisfy a condition on the state before the step
  and the action; an invariant of such runs is an induction on `Run`.
* `exec`, `exists_run` — a list of actions that can be carried out is a run.
* `countP_le_of_exec`, `countP_le_add_of_exec` — a number bounds how often steps that lower it occur.
* `putThread` — the threads of a process as a list.
-/

set_option autoImplicit false

namespace Runs

variable {σ A : Type}

/-- The states reached from `s₀` by steps that all satisfy `ok`. -/
inductive Run (step : σ → A → Option σ) (s₀ : σ) (ok : σ → A → Prop) : σ → Prop where
  | init : Run step s₀ ok s₀
  | step {s s' : σ} {a : A} (hr : Run step s₀ ok s) (ha : ok s a) (hs : step s a = some s') :
      Run step s₀ ok s'

/-- No condition on the steps. -/
def anyStep : σ → A → Prop := fun _ _ => True

instance (s : σ) (a : A) : Decidable (anyStep s a) := inferInstanceAs (Decidable True)

section

variable {step : σ → A → Option σ} {s₀ : σ} {ok ok' : σ → A → Prop}

theorem Run.mono (h : ∀ s a, ok s a → ok' s a) {s : σ} (hr : Run step s₀ ok s) :
    Run step s₀ ok' s := by
  induction hr with
  | init => exact .init
  | step _ ha hs ih => exact .step ih (h _ _ ha) hs

/-- A run goes on where another one ended. -/
theorem Run.trans {s t : σ} (hs : Run step s₀ ok s) (ht : Run step s ok t) : Run step s₀ ok t := by
  induction ht with
  | init => exact hs
  | step _ ha hstep ih => exact ih.step ha hstep

variable [∀ s a, Decidable (ok s a)]

/-- Carry out a list of actions; `none` when one of them is not possible or not allowed. -/
def exec (step : σ → A → Option σ) (ok : σ → A → Prop) [∀ s a, Decidable (ok s a)] (s : σ) :
    List A → Option σ
  | [] => some s
  | a :: as =>
    if ok s a then
      match step s a with
      | none => none
      | some s' => exec step ok s' as
    else none

theorem Run.of_exec :
    ∀ (as : List A) {s s' : σ}, Run step s₀ ok s → exec step ok s as = some s' →
      Run step s₀ ok s'
  | [], s, s', hr, h => by cases h; exact hr
  | a :: as, s, s', hr, h => by
    unfold exec at h
    split at h
    · rename_i ha
      split at h
      · cases h
      · rename_i s₁ hs
        exact Run.of_exec as (hr.step ha hs) h
    · cases h

theorem exists_of_any {P : σ → Bool} {o : Option σ} (h : o.any P = true) :
    ∃ s, o = some s ∧ P s = true := by
  cases o with
  | none => cases h
  | some s => exact ⟨s, rfl, h⟩

/-- An execution that ends in a state with `P` is a run to such a state. -/
theorem exists_run {P : σ → Bool} (as : List A) (h : (exec step ok s₀ as).any P = true) :
    ∃ s, Run step s₀ ok s ∧ P s = true := by
  obtain ⟨s, he, hs⟩ := exists_of_any h
  exact ⟨s, Run.of_exec as .init he, hs⟩

/-- **A number that steps never raise bounds how often a step that lowers it can occur.** -/
theorem countP_le_of_exec {I : σ → Prop} {μ : σ → Nat} {p : A → Bool}
    (hstep : ∀ s a s', I s → ok s a → step s a = some s' → I s' ∧ μ s' + (p a).toNat ≤ μ s) :
    ∀ (as : List A) {s s' : σ}, I s → exec step ok s as = some s' →
      I s' ∧ as.countP p + μ s' ≤ μ s
  | [], s, s', hI, h => by
    cases h
    exact ⟨hI, by simp⟩
  | a :: as, s, s', hI, h => by
    unfold exec at h
    split at h
    · rename_i ha
      split at h
      · cases h
      · rename_i s₁ hs
        obtain ⟨hI₁, hle₁⟩ := hstep s a s₁ hI ha hs
        obtain ⟨hI', hle⟩ := countP_le_of_exec hstep as hI₁ h
        refine ⟨hI', ?_⟩
        rw [List.countP_cons]
        cases hp : p a <;> simp_all <;> omega
    · cases h

/-- **A number bounds how often a step that lowers it can occur**, beyond the steps that raise it. -/
theorem countP_le_add_of_exec {I : σ → Prop} {μ : σ → Nat} {p q : A → Bool}
    (hstep : ∀ s a s', I s → ok s a → step s a = some s' →
      I s' ∧ μ s' + (p a).toNat ≤ μ s + (q a).toNat) :
    ∀ (as : List A) {s s' : σ}, I s → exec step ok s as = some s' →
      I s' ∧ as.countP p + μ s' ≤ μ s + as.countP q
  | [], s, s', hI, h => by
    cases h
    exact ⟨hI, by simp⟩
  | a :: as, s, s', hI, h => by
    unfold exec at h
    split at h
    · rename_i ha
      split at h
      · cases h
      · rename_i s₁ hs
        obtain ⟨hI₁, hle₁⟩ := hstep s a s₁ hI ha hs
        obtain ⟨hI', hle⟩ := countP_le_add_of_exec hstep as hI₁ h
        refine ⟨hI', ?_⟩
        rw [List.countP_cons, List.countP_cons]
        cases hp : p a <;> cases hq : q a <;> simp_all <;> omega
    · cases h

end

/-! ## Threads -/

/-- Replace thread `k`, or remove it when it has ended. -/
def putThread {α : Type} (threads : List α) (k : Nat) : Option α → List α
  | some t => threads.set k t
  | none => threads.eraseIdx k

theorem mem_putThread {α : Type} {threads : List α} {k : Nat} {next : Option α} {t : α}
    (h : t ∈ putThread threads k next) : next = some t ∨ t ∈ threads := by
  cases next with
  | none => exact Or.inr (List.mem_of_mem_eraseIdx h)
  | some a =>
    rcases List.mem_or_eq_of_mem_set h with h₁ | h₁
    · exact Or.inr h₁
    · exact Or.inl (congrArg some h₁.symm)

section Threads

variable {α : Type} {threads : List α} {k : Nat} {u : α}

theorem mem_putThread_self (hu : threads[k]? = some u) (t : α) :
    t ∈ putThread threads k (some t) :=
  List.mem_set (List.getElem?_eq_some_iff.mp hu).1 t

theorem mem_putThread_of_mem (hu : threads[k]? = some u) (next : Option α) {t : α}
    (ht : t ∈ threads) : t = u ∨ t ∈ putThread threads k next := by
  obtain ⟨i, hi⟩ := List.mem_iff_getElem?.mp ht
  by_cases hik : i = k
  · subst hik
    rw [hu] at hi
    exact Or.inl (Option.some.inj hi).symm
  · right
    cases next with
    | none => exact List.mem_eraseIdx_iff_getElem?.mpr ⟨i, hik, hi⟩
    | some a =>
      refine List.mem_iff_getElem?.mpr ⟨i, ?_⟩
      rw [putThread, List.getElem?_set_ne (Ne.symm hik)]
      exact hi

/-- A thread and the others: the others do not depend on what the thread becomes. -/
theorem exists_others (hu : threads[k]? = some u) :
    ∃ others, threads.Perm (u :: others) ∧ ∀ t, (threads.set k t).Perm (t :: others) := by
  obtain ⟨hk, rfl⟩ := List.getElem?_eq_some_iff.mp hu
  exact ⟨threads.eraseIdx k, (List.getElem_cons_eraseIdx_perm hk).symm,
    fun t => List.set_perm_cons_eraseIdx hk t⟩

variable {R : α → α → Prop}

/-- A symmetric relation between the threads, read off at two places. -/
theorem pairwise_getElem? (hsymm : ∀ a b, R a b → R b a) (h : threads.Pairwise R) {i j : Nat}
    {a b : α} (hne : i ≠ j) (ha : threads[i]? = some a) (hb : threads[j]? = some b) : R a b := by
  obtain ⟨hi, rfl⟩ := List.getElem?_eq_some_iff.mp ha
  obtain ⟨hj, rfl⟩ := List.getElem?_eq_some_iff.mp hb
  rw [List.pairwise_iff_getElem] at h
  rcases Nat.lt_or_gt_of_ne hne with hlt | hlt
  · exact h i j hi hj hlt
  · exact hsymm _ _ (h j i hj hi hlt)

/-- **A symmetric relation between the threads survives a move** if the thread that moved is
related to the others. -/
theorem pairwise_putThread (hsymm : ∀ a b, R a b → R b a) (h : threads.Pairwise R)
    {next : Option α}
    (hnext : ∀ t, next = some t → ∀ i a, i ≠ k → threads[i]? = some a → R t a) :
    (putThread threads k next).Pairwise R := by
  cases next with
  | none => exact h.sublist (List.eraseIdx_sublist threads k)
  | some t =>
    have hother : ∀ i (hi : i < threads.length), i ≠ k → R t threads[i] := by
      intro i hi hik
      exact hnext t rfl i _ hik (List.getElem?_eq_getElem hi)
    rw [List.pairwise_iff_getElem] at h
    refine List.pairwise_iff_getElem.mpr ?_
    intro i j hi hj hij
    simp only [putThread, List.length_set] at hi hj
    simp only [putThread, List.getElem_set]
    by_cases hki : k = i
    · rw [if_pos hki, if_neg (by omega)]
      exact hother j hj (by omega)
    · rw [if_neg hki]
      by_cases hkj : k = j
      · rw [if_pos hkj]
        exact hsymm _ _ (hother i hi (Ne.symm hki))
      · rw [if_neg hkj]
        exact h i j hi hj hij

end Threads

end Runs
