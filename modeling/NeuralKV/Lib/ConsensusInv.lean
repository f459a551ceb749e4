import NeuralKV.Lib.Consensus

/-!
# The invariant of leader-based log replication

`Inv` collects what every reachable history satisfies.  Its two load-bearing parts:

* `Rooted` — a log is, up to each of its entries, a piece of the book of that entry's term.
  It holds of every node's log, every book, every candidate's log and every voter's log, and
  gives Log Matching at once.
* `Kept` — a log still contains what its node acknowledged of the book of an earlier term, or
  the book of a term in between conflicts with that piece.  It mentions no commitment, so it
  is inductive on its own; Leader Completeness removes the second alternative later.

`inv_step` proves that every move preserves `Inv`; `inv_steps` and `extends_steps` are the forms
for any number of moves.
-/

set_option autoImplicit false

namespace Consensus

open Quorum

variable {Node Entry : Type} {term : Entry → Nat}

/-! ## Prefixes of books -/

theorem getElem?_of_isPrefix {B C : List Entry} (h : B <+: C) {i : Nat} {b : Entry}
    (hb : B[i]? = some b) : C[i]? = some b := by
  obtain ⟨t, rfl⟩ := h
  obtain ⟨hi, _⟩ := List.getElem?_eq_some_iff.mp hb
  rw [List.getElem?_append_left hi]
  exact hb

theorem take_of_isPrefix {B C : List Entry} (h : B <+: C) {k : Nat} (hk : k ≤ B.length) :
    C.take k = B.take k := by
  obtain ⟨t, rfl⟩ := h
  rw [List.take_append_of_le_length hk]

theorem Conflict.mono {B B' C C' : List Entry} {k k' : Nat} (h : Conflict term B C k)
    (hB : B <+: B') (hC : C <+: C') (hk : k ≤ k') : Conflict term B' C' k' := by
  obtain ⟨i, hi, b, c, hb, hc, hne⟩ := h
  exact ⟨i, by omega, b, c, getElem?_of_isPrefix hB hb, getElem?_of_isPrefix hC hc, hne⟩

theorem not_conflict_nil {C : List Entry} {k : Nat} : ¬ Conflict term [] C k := by
  rintro ⟨i, _, b, c, hb, _⟩
  simp at hb

/-- Up to each of its entries, `L` is a piece of the book of that entry's term. -/
def Rooted (term : Entry → Nat) (book : Nat → List Entry) (L : List Entry) : Prop :=
  ∀ i e, L[i]? = some e → L.take (i + 1) <+: book (term e)

theorem Rooted.mono {book book' : Nat → List Entry} {L : List Entry} (h : Rooted term book L)
    (hb : ∀ T, book T <+: book' T) : Rooted term book' L :=
  fun i e he => (h i e he).trans (hb _)

theorem Rooted.of_isPrefix {book : Nat → List Entry} {L M : List Entry} (h : Rooted term book L)
    (hM : M <+: L) : Rooted term book M := by
  intro i e he
  obtain ⟨hi, _⟩ := List.getElem?_eq_some_iff.mp he
  have hL := h i e (getElem?_of_isPrefix hM he)
  rwa [take_of_isPrefix hM (by omega)] at hL

theorem Rooted.nil {book : Nat → List Entry} : Rooted term book ([] : List Entry) := by
  intro i e he
  simp at he

/-- A rooted log is a prefix of the book of its last entry's term. -/
theorem Rooted.prefix_book_last {book : Nat → List Entry} {L : List Entry}
    (h : Rooted term book L) {e : Entry} (he : L.getLast? = some e) : L <+: book (term e) := by
  rw [List.getLast?_eq_getElem?] at he
  have hp := h _ e he
  obtain ⟨hi, _⟩ := List.getElem?_eq_some_iff.mp he
  rwa [List.take_of_length_le (by omega)] at hp

/-- **Log matching for rooted logs**: same term at the same index, same logs up to there. -/
theorem Rooted.take_eq {book : Nat → List Entry} {L M : List Entry} (hL : Rooted term book L)
    (hM : Rooted term book M) {i : Nat} {a b : Entry} (ha : L[i]? = some a) (hb : M[i]? = some b)
    (hab : term a = term b) : L.take (i + 1) = M.take (i + 1) := by
  have h₁ := hL i a ha
  have h₂ := hM i b hb
  rw [hab] at h₁
  obtain ⟨hi, _⟩ := List.getElem?_eq_some_iff.mp ha
  obtain ⟨hj, _⟩ := List.getElem?_eq_some_iff.mp hb
  have hlen : (L.take (i + 1)).length = (M.take (i + 1)).length := by
    rw [List.length_take, List.length_take]; omega
  exact (List.prefix_of_prefix_length_le h₁ h₂ (Nat.le_of_eq hlen)).eq_of_length hlen

/-- `L` contains the first `k` entries of the book of `T`, or the book of a term strictly
between `T` and `U` conflicts with them. -/
def Kept (term : Entry → Nat) (book : Nat → List Entry) (T k : Nat) (L : List Entry) (U : Nat) :
    Prop :=
  (book T).take k <+: L ∨ ∃ T', T < T' ∧ T' < U ∧ Conflict term (book T') (book T) k

theorem Kept.zero {book : Nat → List Entry} {T U : Nat} {L : List Entry} :
    Kept term book T 0 L U := Or.inl (by simp)

/-- The alternative of a conflict can only arise in more terms and longer books. -/
theorem Kept.mono {book book' : Nat → List Entry} {T k U U' : Nat} {L L' : List Entry}
    (h : Kept term book T k L U) (hb : ∀ T, book T <+: book' T) (hk : k ≤ (book T).length)
    (hL : L <+: L') (hU : U ≤ U') : Kept term book' T k L' U' := by
  rcases h with h | ⟨T', h₁, h₂, hc⟩
  · exact Or.inl (by rw [take_of_isPrefix (hb T) hk]; exact h.trans hL)
  · exact Or.inr ⟨T', h₁, by omega, hc.mono (hb T') (hb T) (Nat.le_refl k)⟩

/-! ## The invariant -/

/-- What the election of `c` in term `T` left behind. -/
structure Elected (qs : QuorumSystem Node) (term : Entry → Nat) (h : History Node Entry) (T : Nat)
    (c : Node) : Prop where
  stood : ∃ L, h.stood (T, c) = some L ∧ L <+: h.book T ∧ ∀ e ∈ (h.book T).drop L.length, term e = T
  quorum : h.electors T ∈ qs.quorum
  voters : ∀ v ∈ h.electors T, ∃ F, h.vote (T, v) = some (c, F) ∧
    ∀ T' < T, ∀ k ≤ h.ack (v, T'), Kept term h.book T' k F T
  reached : T ≤ h.cur c
  log : h.cur c = T → h.log c = h.book T
  ack : h.ack (c, T) = (h.book T).length

structure Inv (qs : QuorumSystem Node) (term : Entry → Nat) (h : History Node Entry) : Prop where
  log_le : ∀ n, ∀ e ∈ h.log n, term e ≤ h.cur n
  stood_le : ∀ T n L, h.stood (T, n) = some L → 0 < T ∧ T ≤ h.cur n ∧ ∀ e ∈ L, term e < T
  vote_le : ∀ T v p, h.vote (T, v) = some p → T ≤ h.cur v
  vote_upToDate : ∀ T v c F, h.vote (T, v) = some (c, F) →
    ∃ L, h.stood (T, c) = some L ∧ UpToDate term L F
  elected : ∀ T c, h.leader T = some c → Elected qs term h T c
  unelected : ∀ T, h.leader T = none → h.book T = [] ∧ ∀ n, h.ack (n, T) = 0
  rooted_log : ∀ n, Rooted term h.book (h.log n)
  rooted_book : ∀ T, Rooted term h.book (h.book T)
  rooted_stood : ∀ T n L, h.stood (T, n) = some L → Rooted term h.book L
  rooted_vote : ∀ T v c F, h.vote (T, v) = some (c, F) → Rooted term h.book F
  ack_le : ∀ n T, h.ack (n, T) ≤ (h.book T).length
  ack_reached : ∀ n T, 0 < h.ack (n, T) → T ≤ h.cur n
  ack_kept : ∀ n T k, k ≤ h.ack (n, T) → Kept term h.book T k (h.log n) (h.cur n + 1)
  vote_kept : ∀ T v c F, h.vote (T, v) = some (c, F) →
    ∀ T' < T, ∀ k ≤ h.ack (v, T'), Kept term h.book T' k F (T + 1)

theorem inv_init (qs : QuorumSystem Node) (term : Entry → Nat) :
    Inv qs term (History.init : History Node Entry) where
  log_le n e he := by simp [History.init] at he
  stood_le T n L h := by simp [History.init] at h
  vote_le T v p h := by simp [History.init] at h
  vote_upToDate T v c F h := by simp [History.init] at h
  elected T c h := by simp [History.init] at h
  unelected T _ := ⟨rfl, fun _ => rfl⟩
  rooted_log n := Rooted.nil
  rooted_book T := Rooted.nil
  rooted_stood T n L h := by simp [History.init] at h
  rooted_vote T v c F h := by simp [History.init] at h
  ack_le n T := Nat.zero_le _
  ack_reached n T h := by simp [History.init] at h
  ack_kept n T k hk := by
    have : k = 0 := by simpa [History.init] using hk
    subst this; exact Kept.zero
  vote_kept T v c F h := by simp [History.init] at h

namespace Inv

variable {qs : QuorumSystem Node} {h : History Node Entry}

/-- Entries of a book carry at most the term of the book. -/
theorem book_le (I : Inv qs term h) {T : Nat} {e : Entry} (he : e ∈ h.book T) : term e ≤ T := by
  cases hl : h.leader T with
  | none =>
    rw [(I.unelected T hl).1] at he
    cases he
  | some c =>
    obtain ⟨L, hL, hpre, hdrop⟩ := (I.elected T c hl).stood
    obtain ⟨t, ht⟩ := hpre
    rw [← ht] at he hdrop
    rcases List.mem_append.mp he with h₁ | h₁
    · exact Nat.le_of_lt ((I.stood_le T c L hL).2.2 e h₁)
    · exact Nat.le_of_eq (hdrop e (by simpa using h₁))

/-- Within its own term an acknowledged piece is still in the log. -/
theorem ack_prefix (I : Inv qs term h) {n : Node} {k : Nat} (hk : k ≤ h.ack (n, h.cur n)) :
    (h.book (h.cur n)).take k <+: h.log n := by
  rcases I.ack_kept n (h.cur n) k hk with h₁ | ⟨T', h₁, h₂, _⟩
  · exact h₁
  · omega

/-- A book that is not empty belongs to an elected term. -/
theorem leader_of_book (I : Inv qs term h) {T : Nat} (hb : h.book T ≠ []) :
    ∃ c, h.leader T = some c := by
  cases hl : h.leader T with
  | none => exact absurd (I.unelected T hl).1 hb
  | some c => exact ⟨c, rfl⟩

/-- An elector of `T` has reached `T`. -/
theorem elector_reached (I : Inv qs term h) {T : Nat} {c v : Node} (hl : h.leader T = some c)
    (hv : v ∈ h.electors T) : T ≤ h.cur v := by
  obtain ⟨F, hF, _⟩ := (I.elected T c hl).voters v hv
  exact I.vote_le T v _ hF

/-- **Election safety**: a quorum of votes for `c` in `T` leaves no other leader of `T`. -/
theorem leader_unique (I : Inv qs term h) {T : Nat} {c c' : Node} (hl : h.leader T = some c')
    (hq : h.votersFor T c ∈ qs.quorum) : c' = c := by
  obtain ⟨v, hv₁, F₁, hv₂⟩ := qs.inter _ (I.elected T c' hl).quorum _ hq
  obtain ⟨F₂, hF₂, _⟩ := (I.elected T c' hl).voters v hv₁
  rw [hv₂] at hF₂
  exact (congrArg Prod.fst (Option.some.inj hF₂)).symm

end Inv

/-! ## Moves extend the history -/

section Frame

variable [DecidableEq Node] {qs : QuorumSystem Node} {h : History Node Entry}

theorem update_le_of_le {m n : Node} {f : Node → Nat} {T : Nat} (hT : f n ≤ T) :
    f m ≤ Function.update f n T m := by
  rw [Function.update_apply]
  split
  · rename_i e; subst e; exact hT
  · exact Nat.le_refl _

theorem extends_adopt {n : Node} {T : Nat} (hT : h.cur n < T) : Extends h (h.adopt n T) :=
  { Extends.refl h with cur := fun _ => update_le_of_le (Nat.le_of_lt hT) }

theorem extends_stand (I : Inv qs term h) {n : Node} {T : Nat} (hT : h.cur n < T) :
    Extends h (h.stand n T) :=
  { Extends.refl h with
    cur := fun _ => update_le_of_le (Nat.le_of_lt hT)
    stood := by
      intro T' m L hL
      have hle := (I.stood_le T' m L hL).2.1
      have hne : (T', m) ≠ (T, n) := by
        rintro ⟨⟩
        omega
      simp only [History.stand]
      rw [Function.update_of_ne hne]
      exact hL
    vote := by
      intro T' v p hp
      have hle := I.vote_le T' v p hp
      have hne : (T', v) ≠ (T, n) := by
        rintro ⟨⟩
        omega
      simp only [History.stand]
      rw [Function.update_of_ne hne]
      exact hp }

theorem extends_grant {v c : Node} (hfree : h.vote (h.cur v, v) = none) :
    Extends h (h.grant v c) :=
  { Extends.refl h with
    vote := by
      intro T m p hp
      have hne : (T, m) ≠ (h.cur v, v) := by
        rintro ⟨⟩
        rw [hfree] at hp
        cases hp
      simp only [History.grant]
      rw [Function.update_of_ne hne]
      exact hp }

theorem extends_elect (I : Inv qs term h) {c : Node} (hfree : h.leader (h.cur c) = none) :
    Extends h (h.elect c) := by
  have hne : ∀ T c', h.leader T = some c' → T ≠ h.cur c := by
    rintro T c' hT rfl
    rw [hfree] at hT
    cases hT
  refine { Extends.refl h with leader := ?_, electors := ?_, book := ?_, ack := ?_ }
  · intro T c' hT
    simp only [History.elect]
    rw [Function.update_of_ne (hne T c' hT)]
    exact hT
  · intro T c' hT
    simp only [History.elect]
    rw [Function.update_of_ne (hne T c' hT)]
  · intro T
    simp only [History.elect, Function.update_apply]
    split
    · rename_i e
      subst e
      rw [(I.unelected _ hfree).1]
      exact List.nil_prefix
    · exact List.prefix_refl _
  · intro n T
    simp only [History.elect, Function.update_apply]
    split
    · rename_i e
      obtain ⟨rfl, rfl⟩ := Prod.mk.inj e
      rw [(I.unelected _ hfree).2]
      exact Nat.zero_le _
    · exact Nat.le_refl _

theorem extends_append (I : Inv qs term h) {c : Node} {e : Entry} :
    Extends h (h.append c e) := by
  refine { Extends.refl h with book := ?_, ack := ?_ }
  · intro T
    simp only [History.append, Function.update_apply]
    split
    · rename_i e'; subst e'; exact List.prefix_append _ _
    · exact List.prefix_refl _
  · intro n T
    simp only [History.append, Function.update_apply]
    split
    · rename_i e'
      obtain ⟨rfl, rfl⟩ := Prod.mk.inj e'
      have := I.ack_le n (h.cur n)
      omega
    · exact Nat.le_refl _

theorem extends_accept {n : Node} {k : Nat} {L' : List Entry} : Extends h (h.accept n k L') := by
  refine { Extends.refl h with ack := ?_ }
  intro m T
  simp only [History.accept, Function.update_apply]
  split
  · rename_i e
    obtain ⟨rfl, rfl⟩ := Prod.mk.inj e
    exact Nat.le_max_left _ _
  · exact Nat.le_refl _

/-! A move of `n` leaves what is recorded about another node alone. -/

theorem sameAt_adopt {n m : Node} {T : Nat} (hm : m ≠ n) : SameAt m h (h.adopt n T) :=
  { SameAt.refl m h with cur := by simp [History.adopt, hm] }

theorem sameAt_stand {n m : Node} {T : Nat} (hm : m ≠ n) : SameAt m h (h.stand n T) :=
  { SameAt.refl m h with
    cur := by simp [History.stand, hm]
    stood := fun T' => by simp [History.stand, hm]
    vote := fun T' => by simp [History.stand, hm] }

theorem sameAt_grant {v c m : Node} (hm : m ≠ v) : SameAt m h (h.grant v c) :=
  { SameAt.refl m h with
    vote := fun T' => by simp [History.grant, hm] }

theorem sameAt_elect {c m : Node} (hm : m ≠ c) (hfree : h.leader (h.cur c) = none) :
    SameAt m h (h.elect c) :=
  { SameAt.refl m h with
    leads := by
      intro T
      simp only [History.elect, Function.update_apply]
      split
      · rename_i e
        subst e
        rw [hfree]
        simp [Ne.symm hm]
      · exact Iff.rfl }

theorem sameAt_append {c m : Node} {e : Entry} (hm : m ≠ c) : SameAt m h (h.append c e) :=
  { SameAt.refl m h with log := by simp [History.append, hm] }

theorem sameAt_accept {n m : Node} {k : Nat} {L' : List Entry} (hm : m ≠ n) :
    SameAt m h (h.accept n k L') :=
  { SameAt.refl m h with log := by simp [History.accept, hm] }

end Frame

/-! ## Preservation -/

section Preservation

variable {qs : QuorumSystem Node} {h h' : History Node Entry}

/-- Acknowledgements of terms a node has left behind are final. -/
def AcksFinal (h h' : History Node Entry) : Prop :=
  ∀ v T, T < h.cur v → h'.ack (v, T) = h.ack (v, T)

theorem Inv.kept_frame (I : Inv qs term h) (x : Extends h h') {n : Node} {T k U U' : Nat}
    {L L' : List Entry} (hk : k ≤ h.ack (n, T)) (hK : Kept term h.book T k L U) (hL : L <+: L')
    (hU : U ≤ U') : Kept term h'.book T k L' U' :=
  hK.mono x.book (Nat.le_trans hk (I.ack_le n T)) hL hU

/-- An election stays as it was when the book of its term does. -/
theorem Inv.elected_frame (I : Inv qs term h) (x : Extends h h') (hack : AcksFinal h h') {T : Nat}
    {c : Node} (hl : h.leader T = some c) (hbook : h'.book T = h.book T)
    (hlog : h'.cur c = T → h'.log c = h.log c) (hackc : h'.ack (c, T) = h.ack (c, T)) :
    Elected qs term h' T c := by
  have E := I.elected T c hl
  have hel := x.electors T c hl
  refine ⟨?_, ?_, ?_, ?_, ?_, ?_⟩
  · obtain ⟨L, hL, hpre, hdrop⟩ := E.stood
    exact ⟨L, x.stood T c L hL, by rw [hbook]; exact hpre, by rw [hbook]; exact hdrop⟩
  · rw [hel]; exact E.quorum
  · intro v hv
    rw [hel] at hv
    obtain ⟨F, hF, hK⟩ := E.voters v hv
    refine ⟨F, x.vote T v _ hF, ?_⟩
    intro T' hT' k hk
    rw [hack v T' (Nat.lt_of_lt_of_le hT' (I.vote_le T v _ hF))] at hk
    exact I.kept_frame x hk (hK T' hT' k hk) (List.prefix_refl F) (Nat.le_refl T)
  · exact Nat.le_trans E.reached (x.cur c)
  · intro hcur
    have hc : h.cur c = T := Nat.le_antisymm (hcur ▸ x.cur c) E.reached
    rw [hlog hcur, hbook, E.log hc]
  · rw [hackc, hbook, E.ack]

theorem Inv.vote_kept_frame (I : Inv qs term h) (x : Extends h h') (hack : AcksFinal h h')
    {T : Nat} {v c : Node} {F : List Entry} (hv : h.vote (T, v) = some (c, F)) :
    ∀ T' < T, ∀ k ≤ h'.ack (v, T'), Kept term h'.book T' k F (T + 1) := by
  intro T' hT' k hk
  rw [hack v T' (Nat.lt_of_lt_of_le hT' (I.vote_le T v _ hv))] at hk
  exact I.kept_frame x hk (I.vote_kept T v c F hv T' hT' k hk) (List.prefix_refl F) (Nat.le_refl _)

/-- What a log contains before index `i` it still contains after being replaced by a log with
the same first `i` entries. -/
theorem prefix_of_take_eq {P L B : List Entry} {i : Nat} (hP : P <+: L) (hi : P.length ≤ i)
    (htake : L.take i = B.take i) : P <+: B := by
  have h₁ : P <+: L.take i := by
    rw [List.prefix_take_iff]
    exact ⟨hP, hi⟩
  rw [htake] at h₁
  exact h₁.trans (List.take_prefix i B)

/-- A splice keeps an acknowledged piece of an earlier book, or shows a conflict with it. -/
theorem Spliced.kept {L B L' P : List Entry} (hs : Spliced term L B L') (hP : P <+: L) :
    P <+: L' ∨ Conflict term B P P.length := by
  rcases hs with ⟨_, rfl⟩ | ⟨rfl, hLB | ⟨i, a, b, ha, hb, hne, htake⟩⟩
  · exact Or.inl hP
  · exact Or.inl (hP.trans hLB)
  · by_cases hi : P.length ≤ i
    · exact Or.inl (prefix_of_take_eq hP hi htake)
    · -- the disagreement lies inside the piece
      have hPi : P[i]? = some a := by
        obtain ⟨t, rfl⟩ := hP
        rwa [List.getElem?_append_left (by omega)] at ha
      exact Or.inr ⟨i, by omega, b, a, hb, hPi, Ne.symm hne⟩

theorem Spliced.contains {L B L' : List Entry} (hs : Spliced term L B L') : B <+: L' := by
  rcases hs with ⟨h₁, rfl⟩ | ⟨rfl, _⟩
  · exact h₁
  · exact List.prefix_refl _

theorem Spliced.mem {L B L' : List Entry} (hs : Spliced term L B L') {e : Entry} (he : e ∈ L') :
    e ∈ L ∨ e ∈ B := by
  rcases hs with ⟨_, rfl⟩ | ⟨rfl, _⟩
  · exact Or.inl he
  · exact Or.inr he

/-- In the current term both the old and the new acknowledged piece are in the spliced log. -/
theorem Inv.kept_accept_current (I : Inv qs term h) {n : Node} {k j : Nat} {L' : List Entry}
    (hs : Spliced term (h.log n) ((h.book (h.cur n)).take k) L')
    (hj : j ≤ max (h.ack (n, h.cur n)) k) : (h.book (h.cur n)).take j <+: L' := by
  by_cases hjk : j ≤ k
  · exact (List.take_prefix_take_left hjk).trans hs.contains
  · rcases hs.kept (I.ack_prefix (k := j) (by omega)) with h₁ | ⟨i, _, b, a, hb, ha, hab⟩
    · exact h₁
    · -- two pieces of one book do not conflict
      have hb' := getElem?_of_isPrefix (List.take_prefix k _) hb
      have ha' := getElem?_of_isPrefix (List.take_prefix j _) ha
      rw [hb'] at ha'
      exact absurd (congrArg term (Option.some.inj ha')) hab

/-- What was acknowledged in an earlier term is kept, or the book of the current term conflicts
with it. -/
theorem Inv.kept_accept_earlier (I : Inv qs term h) {n : Node} {T k j : Nat} {L' : List Entry}
    (hs : Spliced term (h.log n) ((h.book (h.cur n)).take k) L') (hT : T ≠ h.cur n)
    (hj : j ≤ h.ack (n, T)) : Kept term h.book T j L' (h.cur n + 1) := by
  rcases I.ack_kept n T j hj with h₁ | h₁
  · rcases hs.kept h₁ with h₂ | h₂
    · exact Or.inl h₂
    · by_cases h0 : j = 0
      · subst h0
        exact Kept.zero
      · have hTc : T ≤ h.cur n := I.ack_reached n T (by omega)
        refine Or.inr ⟨h.cur n, by omega, Nat.lt_succ_self _, ?_⟩
        exact h₂.mono (List.take_prefix k _) (List.take_prefix j _)
          (by rw [List.length_take]; omega)
  · exact Or.inr h₁

variable [DecidableEq Node]

theorem inv_adopt (I : Inv qs term h) {n : Node} {T : Nat} (hT : h.cur n < T) :
    Inv qs term (h.adopt n T) := by
  have x := extends_adopt (h := h) hT
  have hfin : AcksFinal h (h.adopt n T) := fun _ _ _ => rfl
  exact
    { I with
      log_le := fun m e he => Nat.le_trans (I.log_le m e he) (x.cur m)
      stood_le := fun T' m L hL =>
        let ⟨h0, hle, ht⟩ := I.stood_le T' m L hL
        ⟨h0, Nat.le_trans hle (x.cur m), ht⟩
      vote_le := fun T' v p hp => Nat.le_trans (I.vote_le T' v p hp) (x.cur v)
      elected := fun T' c hl => I.elected_frame x hfin hl rfl (fun _ => rfl) rfl
      ack_reached := fun m T' h0 => Nat.le_trans (I.ack_reached m T' h0) (x.cur m)
      ack_kept := fun m T' k hk =>
        I.kept_frame x hk (I.ack_kept m T' k hk) (List.prefix_refl _)
          (Nat.succ_le_succ (x.cur m)) }

theorem upToDate_refl (L : List Entry) : UpToDate term L L := Or.inr ⟨rfl, Nat.le_refl _⟩

theorem inv_stand (I : Inv qs term h) {n : Node} {T : Nat} (hT : h.cur n < T) :
    Inv qs term (h.stand n T) := by
  have x := extends_stand I hT
  have hfin : AcksFinal h (h.stand n T) := fun _ _ _ => rfl
  have hcur : (h.stand n T).cur n = T := by simp [History.stand]
  have hnew : (h.stand n T).stood (T, n) = some (h.log n) := by simp [History.stand]
  refine
    { I with
      log_le := fun m e he => Nat.le_trans (I.log_le m e he) (x.cur m)
      stood_le := ?_
      vote_le := ?_
      vote_upToDate := ?_
      elected := fun T' c hl => I.elected_frame x hfin hl rfl (fun _ => rfl) rfl
      rooted_stood := ?_
      rooted_vote := ?_
      ack_reached := fun m T' h0 => Nat.le_trans (I.ack_reached m T' h0) (x.cur m)
      ack_kept := fun m T' k hk =>
        I.kept_frame x hk (I.ack_kept m T' k hk) (List.prefix_refl _)
          (Nat.succ_le_succ (x.cur m))
      vote_kept := ?_ }
  · intro T' m L hL
    rcases History.stand_stood_cases hL with ⟨rfl, rfl, rfl⟩ | hL
    · exact ⟨by omega, Nat.le_of_eq hcur.symm, fun e he => Nat.lt_of_le_of_lt (I.log_le m e he) hT⟩
    · obtain ⟨h0, hle, ht⟩ := I.stood_le T' m L hL
      exact ⟨h0, Nat.le_trans hle (x.cur m), ht⟩
  · intro T' v p hp
    obtain ⟨c, F⟩ := p
    rcases History.stand_vote_cases hp with ⟨rfl, rfl, _, _⟩ | hp
    · exact Nat.le_of_eq hcur.symm
    · exact Nat.le_trans (I.vote_le T' v _ hp) (x.cur v)
  · intro T' v c F hF
    rcases History.stand_vote_cases hF with ⟨rfl, rfl, rfl, rfl⟩ | hF
    · exact ⟨_, hnew, upToDate_refl _⟩
    · obtain ⟨L, hL, hup⟩ := I.vote_upToDate T' v c F hF
      exact ⟨L, x.stood T' c L hL, hup⟩
  · intro T' m L hL
    rcases History.stand_stood_cases hL with ⟨rfl, rfl, rfl⟩ | hL
    · exact I.rooted_log m
    · exact I.rooted_stood T' m L hL
  · intro T' v c F hF
    rcases History.stand_vote_cases hF with ⟨rfl, rfl, rfl, rfl⟩ | hF
    · exact I.rooted_log c
    · exact I.rooted_vote T' v c F hF
  · intro T' v c F hF
    rcases History.stand_vote_cases hF with ⟨rfl, rfl, rfl, rfl⟩ | hF
    · -- the self vote is cast with the log the node has now
      intro T₀ _ k hk
      exact I.kept_frame x hk (I.ack_kept c T₀ k hk) (List.prefix_refl _) (by omega)
    · exact I.vote_kept_frame x hfin hF

theorem inv_grant (I : Inv qs term h) {v c : Node} {L : List Entry}
    (hfree : h.vote (h.cur v, v) = none) (hstood : h.stood (h.cur v, c) = some L)
    (hup : UpToDate term L (h.log v)) : Inv qs term (h.grant v c) := by
  have x := extends_grant (h := h) (c := c) hfree
  have hfin : AcksFinal h (h.grant v c) := fun _ _ _ => rfl
  refine
    { I with
      vote_le := ?_
      vote_upToDate := ?_
      elected := fun T' c' hl => I.elected_frame x hfin hl rfl (fun _ => rfl) rfl
      rooted_vote := ?_
      vote_kept := ?_ }
  · intro T' m p hp
    obtain ⟨c', F⟩ := p
    rcases History.grant_vote_cases hp with ⟨rfl, rfl, _, _⟩ | hp
    · exact Nat.le_refl _
    · exact I.vote_le T' m _ hp
  · intro T' m c' F hF
    rcases History.grant_vote_cases hF with ⟨rfl, rfl, rfl, rfl⟩ | hF
    · exact ⟨L, hstood, hup⟩
    · exact I.vote_upToDate T' m c' F hF
  · intro T' m c' F hF
    rcases History.grant_vote_cases hF with ⟨rfl, rfl, rfl, rfl⟩ | hF
    · exact I.rooted_log m
    · exact I.rooted_vote T' m c' F hF
  · intro T' m c' F hF
    rcases History.grant_vote_cases hF with ⟨rfl, rfl, rfl, rfl⟩ | hF
    · intro T₀ _ k hk
      exact I.ack_kept m T₀ k hk
    · exact I.vote_kept T' m c' F hF

theorem acksFinal_elect {c : Node} : AcksFinal h (h.elect c) := by
  intro v T hT
  apply History.elect_ack
  rintro ⟨rfl, rfl⟩
  omega

/-- A vote for `c` in the term of its election kept what its voter had acknowledged.  The term
had no book when the vote was cast, so a conflict is with the book of an earlier term. -/
theorem Inv.kept_elect (I : Inv qs term h) {c v : Node} {F : List Entry}
    (hfree : h.leader (h.cur c) = none) (hF : h.vote (h.cur c, v) = some (c, F)) :
    ∀ T < h.cur c, ∀ k ≤ (h.elect c).ack (v, T), Kept term (h.elect c).book T k F (h.cur c) := by
  intro T hT k hk
  have hTc : T ≠ h.cur c := by omega
  rw [History.elect_ack (fun e => hTc e.2)] at hk
  rcases I.vote_kept _ v c F hF T hT k hk with hK | ⟨U, h₁, h₂, hc⟩
  · left
    rw [History.elect_book hTc]
    exact hK
  · have hU : U ≠ h.cur c := by
      rintro rfl
      rw [(I.unelected _ hfree).1] at hc
      exact not_conflict_nil hc
    refine Or.inr ⟨U, h₁, by omega, ?_⟩
    rw [History.elect_book hU, History.elect_book hTc]
    exact hc

theorem Inv.elected_elect (I : Inv qs term h) {c : Node}
    (hstood : h.stood (h.cur c, c) = some (h.log c)) (hfree : h.leader (h.cur c) = none)
    (hq : h.votersFor (h.cur c) c ∈ qs.quorum) : Elected qs term (h.elect c) (h.cur c) c := by
  have hbook : (h.elect c).book (h.cur c) = h.log c := History.elect_book_self
  refine ⟨⟨_, hstood, ?_, ?_⟩, ?_, ?_, Nat.le_refl _, fun _ => hbook.symm, ?_⟩
  · exact hbook.symm ▸ List.prefix_refl _
  · rw [hbook, List.drop_length]
    intro e he
    cases he
  · simpa [History.elect] using hq
  · intro v hv
    obtain ⟨F, hF⟩ : v ∈ h.votersFor (h.cur c) c := by simpa [History.elect] using hv
    exact ⟨F, hF, I.kept_elect hfree hF⟩
  · rw [History.elect_ack_self, hbook]

theorem inv_elect (I : Inv qs term h) {c : Node} (hstood : h.stood (h.cur c, c) = some (h.log c))
    (hfree : h.leader (h.cur c) = none) (hq : h.votersFor (h.cur c) c ∈ qs.quorum) :
    Inv qs term (h.elect c) := by
  have x := extends_elect I hfree
  refine
    { I with
      elected := ?_
      unelected := ?_
      rooted_log := fun n => (I.rooted_log n).mono x.book
      rooted_book := ?_
      rooted_stood := fun T n L hL => (I.rooted_stood T n L hL).mono x.book
      rooted_vote := fun T v c' F hF => (I.rooted_vote T v c' F hF).mono x.book
      ack_le := ?_
      ack_reached := ?_
      ack_kept := ?_
      vote_kept := fun T v c' F hF => I.vote_kept_frame x acksFinal_elect hF }
  · intro T c' hl
    by_cases hT : T = h.cur c
    · subst hT
      have hcc : c' = c := by simpa [History.elect] using hl.symm
      subst hcc
      exact I.elected_elect hstood hfree hq
    · rw [History.elect_leader hT] at hl
      exact I.elected_frame x acksFinal_elect hl (History.elect_book hT) (fun _ => rfl)
        (History.elect_ack (fun e => hT e.2))
  · intro T hl
    have hT : T ≠ h.cur c := by
      rintro rfl
      simp [History.elect] at hl
    rw [History.elect_leader hT] at hl
    obtain ⟨h₁, h₂⟩ := I.unelected T hl
    exact ⟨by rw [History.elect_book hT, h₁],
      fun n => by rw [History.elect_ack (fun e => hT e.2), h₂]⟩
  · intro T
    by_cases hT : T = h.cur c
    · subst hT
      rw [History.elect_book_self]
      exact (I.rooted_log c).mono x.book
    · rw [History.elect_book hT]
      exact (I.rooted_book T).mono x.book
  · intro n T
    rcases History.elect_ack_cases (Nat.le_refl ((h.elect c).ack (n, T))) with hk | ⟨rfl, rfl, hk⟩
    · exact Nat.le_trans (Nat.le_trans hk (I.ack_le n T)) (x.book T).length_le
    · rw [History.elect_book_self]
      exact hk
  · intro n T h0
    rcases History.elect_ack_cases (Nat.le_refl ((h.elect c).ack (n, T))) with hk | ⟨rfl, rfl, _⟩
    · exact I.ack_reached n T (by omega)
    · exact Nat.le_refl _
  · intro n T k hk
    rcases History.elect_ack_cases hk with hk | ⟨rfl, rfl, hk⟩
    · exact I.kept_frame x hk (I.ack_kept n T k hk) (List.prefix_refl _) (Nat.le_refl _)
    · left
      rw [History.elect_book_self]
      exact List.take_prefix k _

theorem acksFinal_append {c : Node} {e : Entry} : AcksFinal h (h.append c e) := by
  intro v T hT
  apply History.append_ack
  rintro ⟨rfl, rfl⟩
  omega

theorem log_prefix_append {c : Node} {e : Entry} (n : Node) : h.log n <+: (h.append c e).log n := by
  by_cases hn : n = c
  · subst hn
    rw [History.append_log_self]
    exact List.prefix_append _ _
  · exact (History.append_log hn).symm ▸ List.prefix_refl _

/-- The book, and with it the leader's log, is extended by an entry of the book's own term. -/
theorem Inv.rooted_append (I : Inv qs term h) {c : Node} {e : Entry} (he : term e = h.cur c) :
    Rooted term (h.append c e).book (h.book (h.cur c) ++ [e]) := by
  intro i a ha
  by_cases hi : i < (h.book (h.cur c)).length
  · rw [List.getElem?_append_left hi] at ha
    rw [List.take_append_of_le_length (by omega)]
    exact ((I.rooted_book _) i a ha).trans ((extends_append I).book _)
  · have hi' : i < (h.book (h.cur c) ++ [e]).length := (List.getElem?_eq_some_iff.mp ha).1
    rw [List.length_append, List.length_singleton] at hi'
    have h0 : i - (h.book (h.cur c)).length = 0 := by omega
    rw [List.getElem?_append_right (by omega), h0] at ha
    obtain rfl : e = a := Option.some.inj ha
    rw [he, History.append_book_self]
    exact List.take_prefix _ _

theorem Inv.elected_append (I : Inv qs term h) {c : Node} {e : Entry}
    (hlead : h.leader (h.cur c) = some c) (he : term e = h.cur c) :
    Elected qs term (h.append c e) (h.cur c) c := by
  have x := extends_append (e := e) (c := c) I
  have E := I.elected _ c hlead
  obtain ⟨L, hL, hpre, hdrop⟩ := E.stood
  refine ⟨⟨L, hL, hpre.trans (x.book _), ?_⟩, E.quorum, ?_, E.reached, ?_, ?_⟩
  · intro a ha
    rw [History.append_book_self, List.drop_append_of_le_length hpre.length_le, List.mem_append,
      List.mem_singleton] at ha
    rcases ha with ha | rfl
    · exact hdrop a ha
    · exact he
  · intro v hv
    obtain ⟨F, hF, hK⟩ := E.voters v hv
    refine ⟨F, hF, ?_⟩
    intro T hT k hk
    rw [History.append_ack (fun e => Nat.ne_of_lt hT e.2)] at hk
    exact I.kept_frame x hk (hK T hT k hk) (List.prefix_refl F) (Nat.le_refl _)
  · intro _
    rw [History.append_log_self, History.append_book_self, E.log rfl]
  · rw [History.append_ack_self, History.append_book_self, List.length_append,
      List.length_singleton]

theorem inv_append (I : Inv qs term h) {c : Node} {e : Entry} (hlead : h.leader (h.cur c) = some c)
    (he : term e = h.cur c) : Inv qs term (h.append c e) := by
  have x := extends_append (e := e) (c := c) I
  have hlogc : h.log c = h.book (h.cur c) := (I.elected _ c hlead).log rfl
  refine
    { I with
      log_le := ?_
      elected := ?_
      unelected := ?_
      rooted_log := ?_
      rooted_book := ?_
      rooted_stood := fun T n L hL => (I.rooted_stood T n L hL).mono x.book
      rooted_vote := fun T v c' F hF => (I.rooted_vote T v c' F hF).mono x.book
      ack_le := ?_
      ack_reached := ?_
      ack_kept := ?_
      vote_kept := fun T v c' F hF => I.vote_kept_frame x acksFinal_append hF }
  · intro n a ha
    by_cases hn : n = c
    · subst hn
      rw [History.append_log_self, List.mem_append, List.mem_singleton] at ha
      rcases ha with ha | rfl
      · exact I.log_le n a ha
      · exact Nat.le_of_eq he
    · rw [History.append_log hn] at ha
      exact I.log_le n a ha
  · intro T c' hl
    replace hl : h.leader T = some c' := hl
    by_cases hT : T = h.cur c
    · subst hT
      rw [hlead] at hl
      cases hl
      exact I.elected_append hlead he
    · have hlog : (h.append c e).cur c' = T → (h.append c e).log c' = h.log c' := by
        intro hcur
        apply History.append_log
        rintro rfl
        exact hT hcur.symm
      exact I.elected_frame x acksFinal_append hl (History.append_book hT) hlog
        (History.append_ack (fun e => hT e.2))
  · intro T hl
    replace hl : h.leader T = none := hl
    have hT : T ≠ h.cur c := by
      rintro rfl
      rw [hlead] at hl
      cases hl
    obtain ⟨h₁, h₂⟩ := I.unelected T hl
    exact ⟨by rw [History.append_book hT, h₁],
      fun n => by rw [History.append_ack (fun e => hT e.2), h₂]⟩
  · intro n
    by_cases hn : n = c
    · subst hn
      rw [History.append_log_self, hlogc]
      exact I.rooted_append he
    · rw [History.append_log hn]
      exact (I.rooted_log n).mono x.book
  · intro T
    by_cases hT : T = h.cur c
    · subst hT
      rw [History.append_book_self]
      exact I.rooted_append he
    · rw [History.append_book hT]
      exact (I.rooted_book T).mono x.book
  · intro n T
    by_cases hc : n = c ∧ T = h.cur c
    · obtain ⟨rfl, rfl⟩ := hc
      rw [History.append_ack_self, History.append_book_self, List.length_append,
        List.length_singleton]
    · rw [History.append_ack hc]
      exact Nat.le_trans (I.ack_le n T) (x.book T).length_le
  · intro n T h0
    by_cases hc : n = c ∧ T = h.cur c
    · obtain ⟨rfl, rfl⟩ := hc
      exact Nat.le_refl _
    · rw [History.append_ack hc] at h0
      exact I.ack_reached n T h0
  · intro n T k hk
    by_cases hc : n = c ∧ T = h.cur c
    · obtain ⟨rfl, rfl⟩ := hc
      left
      rw [History.append_log_self, hlogc, History.append_book_self]
      exact List.take_prefix k _
    · rw [History.append_ack hc] at hk
      exact I.kept_frame x hk (I.ack_kept n T k hk) (log_prefix_append n) (Nat.le_refl _)

theorem acksFinal_accept {n : Node} {k : Nat} {L' : List Entry} :
    AcksFinal h (h.accept n k L') := by
  intro v T hT
  apply History.accept_ack
  rintro ⟨rfl, rfl⟩
  omega

theorem inv_accept (I : Inv qs term h) {n c : Node} {k : Nat} {L' : List Entry}
    (hlead : h.leader (h.cur n) = some c) (hne : c ≠ n) (hk : k ≤ (h.book (h.cur n)).length)
    (hs : Spliced term (h.log n) ((h.book (h.cur n)).take k) L') :
    Inv qs term (h.accept n k L') := by
  have x : Extends h (h.accept n k L') := extends_accept
  refine
    { I with
      log_le := ?_
      elected := ?_
      unelected := ?_
      rooted_log := ?_
      ack_le := ?_
      ack_reached := ?_
      ack_kept := ?_
      vote_kept := fun T v c' F hF => I.vote_kept_frame x acksFinal_accept hF }
  · intro m e he
    by_cases hm : m = n
    · subst hm
      rw [History.accept_log_self] at he
      rcases hs.mem he with h₁ | h₁
      · exact I.log_le m e h₁
      · exact I.book_le (List.mem_of_mem_take h₁)
    · rw [History.accept_log hm] at he
      exact I.log_le m e he
  · intro T c' hl
    replace hl : h.leader T = some c' := hl
    have hcn : T = h.cur n → c' ≠ n := by
      rintro rfl rfl
      rw [hlead] at hl
      exact hne (Option.some.inj hl)
    refine I.elected_frame x acksFinal_accept hl rfl ?_
      (History.accept_ack (fun e => hcn e.2 e.1))
    intro hcur
    apply History.accept_log
    rintro rfl
    exact hcn hcur.symm rfl
  · intro T hl
    replace hl : h.leader T = none := hl
    have hT : T ≠ h.cur n := by
      rintro rfl
      rw [hlead] at hl
      cases hl
    obtain ⟨h₁, h₂⟩ := I.unelected T hl
    exact ⟨h₁, fun m => by rw [History.accept_ack (fun e => hT e.2), h₂]⟩
  · intro m
    by_cases hm : m = n
    · subst hm
      rw [History.accept_log_self]
      rcases hs with ⟨_, rfl⟩ | ⟨rfl, _⟩
      · exact I.rooted_log m
      · exact (I.rooted_book _).of_isPrefix (List.take_prefix k _)
    · rw [History.accept_log hm]
      exact I.rooted_log m
  · intro m T
    by_cases hc : m = n ∧ T = h.cur n
    · obtain ⟨rfl, rfl⟩ := hc
      rw [History.accept_ack_self]
      exact Nat.max_le.mpr ⟨I.ack_le m _, hk⟩
    · rw [History.accept_ack hc]
      exact I.ack_le m T
  · intro m T h0
    by_cases hc : m = n ∧ T = h.cur n
    · obtain ⟨rfl, rfl⟩ := hc
      exact Nat.le_refl _
    · rw [History.accept_ack hc] at h0
      exact I.ack_reached m T h0
  · intro m T j hj
    by_cases hm : m = n
    · subst hm
      rw [History.accept_log_self]
      by_cases hT : T = h.cur m
      · subst hT
        rw [History.accept_ack_self] at hj
        exact Or.inl (I.kept_accept_current hs hj)
      · rw [History.accept_ack (fun e => hT e.2)] at hj
        exact I.kept_accept_earlier hs hT hj
    · rw [History.accept_ack (fun e => hm e.1)] at hj
      rw [History.accept_log hm]
      exact I.ack_kept m T j hj

/-- **Every move preserves the invariant.** -/
theorem inv_step (I : Inv qs term h) (hst : Step qs term h h') : Inv qs term h' := by
  cases hst with
  | adopt n T hT => exact inv_adopt I hT
  | stand n T hT => exact inv_stand I hT
  | grant v c L hfree hstood hup => exact inv_grant I hfree hstood hup
  | elect c hstood hfree hq => exact inv_elect I hstood hfree hq
  | append c e hlead he => exact inv_append I hlead he
  | accept n c k L' hlead hne hk hs => exact inv_accept I hlead hne hk hs

/-- **Any number of moves preserves the invariant.** -/
theorem inv_steps (I : Inv qs term h) (st : Steps qs term h h') : Inv qs term h' := by
  induction st with
  | refl => exact I
  | tail _ hst ih => exact inv_step ih hst

/-- A move only adds to what is recorded. -/
theorem extends_step (I : Inv qs term h) (hst : Step qs term h h') : Extends h h' := by
  cases hst with
  | adopt n T hT => exact extends_adopt hT
  | stand n T hT => exact extends_stand I hT
  | grant v c L hfree _ _ => exact extends_grant hfree
  | elect c _ hfree _ => exact extends_elect I hfree
  | append c e _ _ => exact extends_append I
  | accept n c k L' _ _ _ _ => exact extends_accept

theorem extends_steps (I : Inv qs term h) (st : Steps qs term h h') : Extends h h' := by
  induction st with
  | refl => exact Extends.refl h
  | tail hpre hst ih => exact ih.trans (extends_step (inv_steps I hpre) hst)

end Preservation

end Consensus
