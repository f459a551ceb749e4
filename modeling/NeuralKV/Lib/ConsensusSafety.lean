import NeuralKV.Lib.ConsensusInv

/-!
# Safety of leader-based log replication

* `log_matching` — two logs with entries of the same term at the same index agree up to it.
* `Committed` — a quorum has acknowledged the first `N` entries of the book of `T`, and the
  `N`-th of them belongs to `T` itself.
* `leader_completeness` — every leader of a later term stood with all committed entries.
* `overwrite_spliced` — the scan a receiver performs entry by entry (skip equal terms, cut at
  the first different one, append the rest) is a splice of a log that matches its own.
-/

set_option autoImplicit false

namespace Consensus

open Quorum

variable {Node Entry : Type} {term : Entry → Nat}

section Safety

variable {qs : QuorumSystem Node} {h : History Node Entry}

/-- **Log matching.** -/
theorem log_matching (I : Inv qs term h) {n m : Node} {i : Nat} {a b : Entry}
    (ha : (h.log n)[i]? = some a) (hb : (h.log m)[i]? = some b) (hab : term a = term b) :
    (h.log n).take (i + 1) = (h.log m).take (i + 1) :=
  (I.rooted_log n).take_eq (I.rooted_log m) ha hb hab

/-- The first `N` entries of the book of `T` are committed by the leader of `T`. -/
structure Committed (qs : QuorumSystem Node) (term : Entry → Nat) (h : History Node Entry)
    (T N : Nat) : Prop where
  last : ∃ e, (h.book T)[N - 1]? = some e ∧ term e = T
  pos : 0 < N
  quorum : { p | N ≤ h.ack (p, T) } ∈ qs.quorum

theorem Committed.le_length {T N : Nat} (C : Committed qs term h T N) : N ≤ (h.book T).length := by
  obtain ⟨e, he, _⟩ := C.last
  have := (List.getElem?_eq_some_iff.mp he).1
  omega

theorem le_lastTerm (I : Inv qs term h) {T N : Nat} {F : List Entry}
    (hF : Rooted term h.book F) (C : Committed qs term h T N) (hpre : (h.book T).take N <+: F) :
    T ≤ lastTerm term F := by
  obtain ⟨e, he, heT⟩ := C.last
  have hN := C.le_length
  have heF : F[N - 1]? = some e := by
    apply getElem?_of_isPrefix hpre
    rw [List.getElem?_take_of_lt (by have := C.pos; omega)]
    exact he
  cases hlast : F.getLast? with
  | none =>
    rw [List.getLast?_eq_none_iff] at hlast
    subst hlast
    simp at heF
  | some a =>
    have hmem : e ∈ h.book (term a) :=
      (hF.prefix_book_last hlast).subset (List.mem_of_getElem? heF)
    have hle := I.book_le hmem
    simp only [lastTerm, hlast, Option.map_some, Option.getD_some]
    omega

/-- **Domination carries the committed entries.**  A candidate's log that is at least as up to
date as a log with the committed entries has them too, when the books of the terms in between
have them. -/
theorem prefix_of_upToDate (I : Inv qs term h) {T N U : Nat} {L F : List Entry}
    (C : Committed qs term h T N) (hL : Rooted term h.book L) (hF : Rooted term h.book F)
    (hT : 0 < T) (hLU : ∀ e ∈ L, term e < U)
    (hpre : (h.book T).take N <+: F) (hup : UpToDate term L F)
    (hmid : ∀ T', T < T' → T' < U → h.book T' ≠ [] → (h.book T).take N <+: h.book T') :
    (h.book T).take N <+: L := by
  have hlast := le_lastTerm I hF C hpre
  have hN := C.le_length
  -- the candidate's log is not empty: its last term is at least `T`
  cases hLl : L.getLast? with
  | none =>
    have h0 : lastTerm term L = 0 := by simp [lastTerm, hLl]
    rcases hup with h₁ | ⟨h₁, _⟩ <;> omega
  | some a =>
    have hLt : lastTerm term L = term a := by simp [lastTerm, hLl]
    have hLb : L <+: h.book (term a) := hL.prefix_book_last hLl
    rcases hup with hgt | ⟨heq, hlen⟩
    · -- a later last term: its book already has the committed entries
      have haU : term a < U := hLU a (List.mem_of_getLast? hLl)
      have hne : h.book (term a) ≠ [] := by
        intro hnil
        rw [hnil, List.prefix_nil] at hLb
        subst hLb
        simp at hLl
      have hbook := hmid (term a) (by omega) haU hne
      have hle : N ≤ L.length := by
        -- otherwise the last entry of `L` would be one of the committed ones
        refine Classical.byContradiction fun hlt => ?_
        rw [List.getLast?_eq_getElem?] at hLl
        have hb := getElem?_of_isPrefix hLb hLl
        have hi : L.length - 1 < N := by omega
        have hmem : (h.book T)[L.length - 1]? = some a := by
          have hlen : L.length - 1 < ((h.book T).take N).length := by
            rw [List.length_take]; omega
          obtain ⟨t, ht⟩ := hbook
          rw [← ht, List.getElem?_append_left hlen, List.getElem?_take_of_lt hi] at hb
          exact hb
        have := I.book_le (List.mem_of_getElem? hmem)
        omega
      exact List.prefix_of_prefix_length_le hbook hLb (by rw [List.length_take]; omega)
    · -- the same last term: both logs are pieces of one book
      cases hFl : F.getLast? with
      | none =>
        rw [List.getLast?_eq_none_iff] at hFl
        subst hFl
        simp only [lastTerm, List.getLast?_nil, Option.map_none, Option.getD_none] at hlast
        omega
      | some b =>
        have hFt : lastTerm term F = term b := by simp [lastTerm, hFl]
        have hFb : F <+: h.book (term b) := hF.prefix_book_last hFl
        rw [← hFt, ← heq, hLt] at hFb
        exact hpre.trans (List.prefix_of_prefix_length_le hFb hLb hlen)

/-- **Leader completeness.**  By strong induction on the later term: an elector of `U` is in
the quorum that acknowledged the entries; it still had them when it voted, because the books
of the terms in between do not conflict with them. -/
theorem leader_completeness (I : Inv qs term h) {T N : Nat} (C : Committed qs term h T N) :
    ∀ U c L, T < U → h.leader U = some c → h.stood (U, c) = some L →
      (h.book T).take N <+: L := by
  intro U
  induction U using Nat.strong_induction_on with
  | _ U ih =>
    intro c L hTU hl hL
    have hmid : ∀ T', T < T' → T' < U → h.book T' ≠ [] → (h.book T).take N <+: h.book T' := by
      intro T' h₁ h₂ hne
      obtain ⟨c', hl'⟩ := I.leader_of_book hne
      obtain ⟨L', hL', hpre, _⟩ := (I.elected T' c' hl').stood
      exact (ih T' h₂ c' L' h₁ hl' hL').trans hpre
    obtain ⟨v, hv, hack⟩ := qs.inter _ (I.elected U c hl).quorum _ C.quorum
    obtain ⟨F, hF, hK⟩ := (I.elected U c hl).voters v hv
    have hpre : (h.book T).take N <+: F := by
      rcases hK T hTU N hack with h₁ | ⟨T', h₁, h₂, i, hi, b, e, hb, he, hne⟩
      · exact h₁
      · -- the book of `T'` contains the committed entries, so it cannot conflict with them
        have hbn : h.book T' ≠ [] := by
          intro hnil
          rw [hnil] at hb
          simp at hb
        have hb' : (h.book T')[i]? = some e := by
          apply getElem?_of_isPrefix (hmid T' h₁ h₂ hbn)
          rw [List.getElem?_take_of_lt hi]
          exact he
        rw [hb] at hb'
        exact absurd (congrArg term (Option.some.inj hb')) hne
    obtain ⟨L₀, hL₀, hup⟩ := I.vote_upToDate U v c F hF
    rw [hL] at hL₀
    cases hL₀
    obtain ⟨e, he, heT⟩ := C.last
    obtain ⟨c₀, hl₀⟩ := I.leader_of_book (T := T) (by intro hnil; rw [hnil] at he; simp at he)
    obtain ⟨L₁, hL₁, _⟩ := (I.elected T c₀ hl₀).stood
    exact prefix_of_upToDate I C (I.rooted_stood U c L hL) (I.rooted_vote U v c F hF)
      (I.stood_le T c₀ L₁ hL₁).1 (I.stood_le U c L hL).2.2 hpre hup hmid

theorem committed_prefix_book (I : Inv qs term h) {T N U : Nat} {c : Node}
    (C : Committed qs term h T N) (hTU : T ≤ U) (hl : h.leader U = some c) :
    (h.book T).take N <+: h.book U := by
  rcases Nat.lt_or_eq_of_le hTU with hlt | rfl
  · obtain ⟨L, hL, hpre, _⟩ := (I.elected U c hl).stood
    exact (leader_completeness I C U c L hlt hl hL).trans hpre
  · exact List.take_prefix N _

theorem Committed.mono {h' : History Node Entry} {T N : Nat} (x : Extends h h')
    (C : Committed qs term h T N) : Committed qs term h' T N := by
  obtain ⟨e, he, heT⟩ := C.last
  refine ⟨⟨e, getElem?_of_isPrefix (x.book T) he, heT⟩, C.pos, ?_⟩
  exact qs.mono _ C.quorum _ (fun p (hp : N ≤ h.ack (p, T)) => Nat.le_trans hp (x.ack p T))

/-- Accepting a piece of `C` keeps what the log already had in common with `C`. -/
theorem Spliced.keeps {L B L' P C : List Entry} (hs : Spliced term L B L') (hP : P <+: L)
    (hB : B <+: C) (hPC : P <+: C) : P <+: L' := by
  rcases hs.kept hP with hkept | ⟨i, _, b, c, hb, hc, hne⟩
  · exact hkept
  · have hb' := getElem?_of_isPrefix hB hb
    rw [getElem?_of_isPrefix hPC hc] at hb'
    cases hb'
    exact absurd rfl hne

end Safety

/-! ## The receiver's scan -/

/-- Compare the entries `es` with `L` from position `i` on: skip while the terms agree, replace
the rest of `L` from the first difference on, append past its end. -/
def overwrite (term : Entry → Nat) (L : List Entry) : Nat → List Entry → List Entry
  | _, [] => L
  | i, e :: es =>
    match L[i]? with
    | some a => if term a = term e then overwrite term L (i + 1) es else L.take i ++ e :: es
    | none => L ++ e :: es

theorem mem_overwrite {L : List Entry} {x : Entry} :
    ∀ {i : Nat} {es : List Entry}, x ∈ overwrite term L i es → x ∈ L ∨ x ∈ es
  | _, [], h => Or.inl h
  | i, e :: es, h => by
    unfold overwrite at h
    split at h
    · split at h
      · exact (mem_overwrite h).imp_right (List.mem_cons_of_mem _)
      · exact (List.mem_append.mp h).imp_left List.mem_of_mem_take
    · exact List.mem_append.mp h

/-- Logs with entries of the same term at the same index agree up to it. -/
def LogsMatch (term : Entry → Nat) (L B : List Entry) : Prop :=
  ∀ i a b, L[i]? = some a → B[i]? = some b → term a = term b → L.take (i + 1) = B.take (i + 1)

theorem Rooted.logsMatch {book : Nat → List Entry} {L B : List Entry} (hL : Rooted term book L)
    (hB : Rooted term book B) : LogsMatch term L B :=
  fun _ _ _ ha hb hab => hL.take_eq hB ha hb hab

theorem LogsMatch.of_isPrefix {L T B : List Entry} (h : LogsMatch term L T) (hB : B <+: T) :
    LogsMatch term L B := by
  intro i a b ha hb hab
  have hlt := (List.getElem?_eq_some_iff.mp hb).1
  rw [h i a b ha (getElem?_of_isPrefix hB hb) hab]
  obtain ⟨t, rfl⟩ := hB
  rw [List.take_append_of_le_length hlt]

/-- **The scan splices what is sent of `B` into a log that matches it.** -/
theorem overwrite_spliced {L B : List Entry} (hmatch : LogsMatch term L B) :
    ∀ d p, B.length - p = d → p ≤ B.length → L.take p = B.take p →
      Spliced term L B (overwrite term L p (B.drop p)) := by
  intro d
  induction d with
  | zero =>
    intro p hd hp htake
    have hpB : p = B.length := by omega
    subst hpB
    rw [List.drop_length, overwrite]
    rw [List.take_length] at htake
    exact Or.inl ⟨htake ▸ List.take_prefix _ L, rfl⟩
  | succ d ih =>
    intro p hd hp htake
    have hlt : p < B.length := by omega
    rw [List.drop_eq_getElem_cons hlt, overwrite]
    have hBp : B[p]? = some B[p] := List.getElem?_eq_getElem hlt
    have hsplit : B.take p ++ B[p] :: B.drop (p + 1) = B := by
      rw [← List.drop_eq_getElem_cons hlt, List.take_append_drop]
    cases hLp : L[p]? with
    | none =>
      have hlen : L.length ≤ p := List.getElem?_eq_none_iff.mp hLp
      rw [List.take_of_length_le hlen] at htake
      refine Or.inr ⟨?_, Or.inl (htake ▸ List.take_prefix p B)⟩
      simp only
      rw [htake, hsplit]
    | some a =>
      simp only
      split
      · rename_i hab
        exact ih (p + 1) (by omega) (by omega) (hmatch p a _ hLp hBp hab)
      · rename_i hab
        refine Or.inr ⟨?_, Or.inr ⟨p, a, B[p], hLp, hBp, hab, htake⟩⟩
        rw [htake, hsplit]

end Consensus
