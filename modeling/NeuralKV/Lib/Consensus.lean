import NeuralKV.Lib.Quorum
import Mathlib.Logic.Function.Basic
import Mathlib.Logic.Relation

/-!
# Leader-based log replication, abstractly

A `History` records what the members of a cluster have done: the term and the log of every
node, the log every candidate stood with, every vote together with the voter's log at that
moment, the elected leader of every term with the quorum that elected it, the log the leader
of a term has built in that term (`book`), and how much of that book each node has
acknowledged while it was in that term.

`Step` lists the moves: adopt a newer term, stand for election, grant a vote, be elected,
append to the book as its leader, accept a piece of the book.  Nothing is ever sent: a message
is a fact about the history that stays true (`Extends`), so delay, loss, duplication and
reordering of messages need no rules of their own.

The moves are stated over arbitrary node and entry types, an arbitrary quorum system and an
arbitrary term label on entries.
-/

set_option autoImplicit false

namespace Consensus

open Quorum

variable {Node Entry : Type}

/-- Term label of the last entry; `0` for the empty log. -/
def lastTerm (term : Entry → Nat) (L : List Entry) : Nat := (L.getLast?.map term).getD 0

/-- `L` is at least as up to date as `F`: a later last term, or the same last term and no
shorter. -/
def UpToDate (term : Entry → Nat) (L F : List Entry) : Prop :=
  lastTerm term F < lastTerm term L ∨ (lastTerm term L = lastTerm term F ∧ F.length ≤ L.length)

/-- Two logs carry different terms at an index below `k`. -/
def Conflict (term : Entry → Nat) (B C : List Entry) (k : Nat) : Prop :=
  ∃ i < k, ∃ b c, B[i]? = some b ∧ C[i]? = some c ∧ term b ≠ term c

/-- The log `L` after accepting `B`: `L` itself if it already contains `B`; otherwise `B`,
when `B` continues `L` or the two differ in term right after a common part. -/
def Spliced (term : Entry → Nat) (L B L' : List Entry) : Prop :=
  (B <+: L ∧ L' = L) ∨
  (L' = B ∧ (L <+: B ∨
    ∃ i a b, L[i]? = some a ∧ B[i]? = some b ∧ term a ≠ term b ∧ L.take i = B.take i))

/-- What a cluster has done so far. -/
structure History (Node Entry : Type) where
  cur : Node → Nat
  log : Node → List Entry
  stood : Nat × Node → Option (List Entry)
  vote : Nat × Node → Option (Node × List Entry)
  leader : Nat → Option Node
  electors : Nat → Set Node
  book : Nat → List Entry
  ack : Node × Nat → Nat

/-- Every node in term `0` with an empty log. -/
def History.init : History Node Entry where
  cur := fun _ => 0
  log := fun _ => []
  stood := fun _ => none
  vote := fun _ => none
  leader := fun _ => none
  electors := fun _ => ∅
  book := fun _ => []
  ack := fun _ => 0

/-- The nodes that voted for `c` in term `T`. -/
def History.votersFor (h : History Node Entry) (T : Nat) (c : Node) : Set Node :=
  { v | ∃ F, h.vote (T, v) = some (c, F) }

section Moves

variable [DecidableEq Node]

def History.adopt (h : History Node Entry) (n : Node) (T : Nat) : History Node Entry :=
  { h with cur := Function.update h.cur n T }

def History.stand (h : History Node Entry) (n : Node) (T : Nat) : History Node Entry :=
  { h with
    cur := Function.update h.cur n T
    stood := Function.update h.stood (T, n) (some (h.log n))
    vote := Function.update h.vote (T, n) (some (n, h.log n)) }

def History.grant (h : History Node Entry) (v c : Node) : History Node Entry :=
  { h with vote := Function.update h.vote (h.cur v, v) (some (c, h.log v)) }

def History.elect (h : History Node Entry) (c : Node) : History Node Entry :=
  { h with
    leader := Function.update h.leader (h.cur c) (some c)
    electors := Function.update h.electors (h.cur c) (h.votersFor (h.cur c) c)
    book := Function.update h.book (h.cur c) (h.log c)
    ack := Function.update h.ack (c, h.cur c) (h.log c).length }

def History.append (h : History Node Entry) (c : Node) (e : Entry) : History Node Entry :=
  { h with
    log := Function.update h.log c (h.log c ++ [e])
    book := Function.update h.book (h.cur c) (h.book (h.cur c) ++ [e])
    ack := Function.update h.ack (c, h.cur c) ((h.book (h.cur c)).length + 1) }

def History.accept (h : History Node Entry) (n : Node) (k : Nat) (L' : List Entry) :
    History Node Entry :=
  { h with
    log := Function.update h.log n L'
    ack := Function.update h.ack (n, h.cur n) (max (h.ack (n, h.cur n)) k) }

/-- One move of one node. -/
inductive Step (qs : QuorumSystem Node) (term : Entry → Nat) :
    History Node Entry → History Node Entry → Prop where
  | adopt {h : History Node Entry} (n : Node) (T : Nat) (hT : h.cur n < T) :
      Step qs term h (h.adopt n T)
  | stand {h : History Node Entry} (n : Node) (T : Nat) (hT : h.cur n < T) :
      Step qs term h (h.stand n T)
  | grant {h : History Node Entry} (v c : Node) (L : List Entry)
      (hfree : h.vote (h.cur v, v) = none) (hstood : h.stood (h.cur v, c) = some L)
      (hup : UpToDate term L (h.log v)) :
      Step qs term h (h.grant v c)
  | elect {h : History Node Entry} (c : Node) (hstood : h.stood (h.cur c, c) = some (h.log c))
      (hfree : h.leader (h.cur c) = none) (hq : h.votersFor (h.cur c) c ∈ qs.quorum) :
      Step qs term h (h.elect c)
  | append {h : History Node Entry} (c : Node) (e : Entry) (hlead : h.leader (h.cur c) = some c)
      (he : term e = h.cur c) :
      Step qs term h (h.append c e)
  | accept {h : History Node Entry} (n c : Node) (k : Nat) (L' : List Entry)
      (hlead : h.leader (h.cur n) = some c) (hne : c ≠ n) (hk : k ≤ (h.book (h.cur n)).length)
      (hs : Spliced term (h.log n) ((h.book (h.cur n)).take k) L') :
      Step qs term h (h.accept n k L')

/-- Any number of moves. -/
abbrev Steps (qs : QuorumSystem Node) (term : Entry → Nat) :
    History Node Entry → History Node Entry → Prop :=
  Relation.ReflTransGen (Step qs term)

/-! ## What a move changes -/

theorem update_of_not_both {β : Type} {f : Node × Nat → β} {x : β} {n m : Node} {T U : Nat}
    (hne : ¬ (m = n ∧ U = T)) : Function.update f (n, T) x (m, U) = f (m, U) :=
  Function.update_of_ne (fun e => hne (Prod.mk.inj e)) _ _

/-- An entry of an updated partial map is the new one, or was there before. -/
theorem update_eq_some {α β : Type} [DecidableEq α] {f : α → Option β} {a b : α} {x y : β}
    (h : Function.update f a (some x) b = some y) : (b = a ∧ y = x) ∨ f b = some y := by
  rw [Function.update_apply] at h
  split at h
  · exact Or.inl ⟨‹_›, (Option.some.inj h).symm⟩
  · exact Or.inr h

namespace History

variable {h : History Node Entry} {n c m : Node} {T U k : Nat} {e : Entry} {L' : List Entry}

theorem stand_stood_cases {L : List Entry} (hL : (h.stand n T).stood (U, m) = some L) :
    (U = T ∧ m = n ∧ L = h.log n) ∨ h.stood (U, m) = some L := by
  rcases update_eq_some hL with ⟨hp, rfl⟩ | hL
  · obtain ⟨rfl, rfl⟩ := Prod.mk.inj hp
    exact Or.inl ⟨rfl, rfl, rfl⟩
  · exact Or.inr hL

theorem stand_vote_cases {F : List Entry} (hF : (h.stand n T).vote (U, m) = some (c, F)) :
    (U = T ∧ m = n ∧ c = n ∧ F = h.log n) ∨ h.vote (U, m) = some (c, F) := by
  rcases update_eq_some hF with ⟨hp, hvote⟩ | hF
  · exact Or.inl ⟨congrArg Prod.fst hp, congrArg Prod.snd hp, Prod.mk.inj hvote⟩
  · exact Or.inr hF

theorem grant_vote_cases {v : Node} {F : List Entry}
    (hF : (h.grant v c).vote (U, m) = some (n, F)) :
    (U = h.cur v ∧ m = v ∧ n = c ∧ F = h.log v) ∨ h.vote (U, m) = some (n, F) := by
  rcases update_eq_some hF with ⟨hp, hvote⟩ | hF
  · exact Or.inl ⟨congrArg Prod.fst hp, congrArg Prod.snd hp, Prod.mk.inj hvote⟩
  · exact Or.inr hF

theorem elect_book_self : (h.elect c).book (h.cur c) = h.log c := Function.update_self _ _ _

theorem elect_book (hT : T ≠ h.cur c) : (h.elect c).book T = h.book T :=
  Function.update_of_ne hT _ _

theorem elect_leader (hT : T ≠ h.cur c) : (h.elect c).leader T = h.leader T :=
  Function.update_of_ne hT _ _

theorem elect_ack_self : (h.elect c).ack (c, h.cur c) = (h.log c).length :=
  Function.update_self _ _ _

theorem elect_ack (hne : ¬ (m = c ∧ T = h.cur c)) : (h.elect c).ack (m, T) = h.ack (m, T) :=
  update_of_not_both hne

/-- Acknowledgements are either old, or the new leader's of its whole log. -/
theorem elect_ack_cases (hk : k ≤ (h.elect c).ack (m, T)) :
    k ≤ h.ack (m, T) ∨ (m = c ∧ T = h.cur c ∧ k ≤ (h.log c).length) := by
  by_cases hc : m = c ∧ T = h.cur c
  · obtain ⟨rfl, rfl⟩ := hc
    rw [elect_ack_self] at hk
    exact Or.inr ⟨rfl, rfl, hk⟩
  · rw [elect_ack hc] at hk
    exact Or.inl hk

theorem append_book_self : (h.append c e).book (h.cur c) = h.book (h.cur c) ++ [e] :=
  Function.update_self _ _ _

theorem append_book (hT : T ≠ h.cur c) : (h.append c e).book T = h.book T :=
  Function.update_of_ne hT _ _

theorem append_log_self : (h.append c e).log c = h.log c ++ [e] := Function.update_self _ _ _

theorem append_log (hm : m ≠ c) : (h.append c e).log m = h.log m := Function.update_of_ne hm _ _

theorem append_ack_self : (h.append c e).ack (c, h.cur c) = (h.book (h.cur c)).length + 1 :=
  Function.update_self _ _ _

theorem append_ack (hne : ¬ (m = c ∧ T = h.cur c)) : (h.append c e).ack (m, T) = h.ack (m, T) :=
  update_of_not_both hne

theorem accept_log_self : (h.accept n k L').log n = L' := Function.update_self _ _ _

theorem accept_log (hm : m ≠ n) : (h.accept n k L').log m = h.log m := Function.update_of_ne hm _ _

theorem accept_ack_self :
    (h.accept n k L').ack (n, h.cur n) = max (h.ack (n, h.cur n)) k := Function.update_self _ _ _

theorem accept_ack (hne : ¬ (m = n ∧ T = h.cur n)) :
    (h.accept n k L').ack (m, T) = h.ack (m, T) := update_of_not_both hne

end History

end Moves

/-! ## What never changes back -/

/-- Facts about `h` that stay true in `h'`: terms and acknowledgements only grow, books are
only extended, candidacies, votes and leaders are never withdrawn. -/
structure Extends (h h' : History Node Entry) : Prop where
  cur : ∀ n, h.cur n ≤ h'.cur n
  stood : ∀ T n L, h.stood (T, n) = some L → h'.stood (T, n) = some L
  vote : ∀ T v p, h.vote (T, v) = some p → h'.vote (T, v) = some p
  leader : ∀ T c, h.leader T = some c → h'.leader T = some c
  electors : ∀ T c, h.leader T = some c → h'.electors T = h.electors T
  book : ∀ T, h.book T <+: h'.book T
  ack : ∀ n T, h.ack (n, T) ≤ h'.ack (n, T)

theorem Extends.refl (h : History Node Entry) : Extends h h :=
  ⟨fun _ => Nat.le_refl _, fun _ _ _ e => e, fun _ _ _ e => e, fun _ _ e => e, fun _ _ _ => rfl,
    fun _ => List.prefix_refl _, fun _ _ => Nat.le_refl _⟩

theorem Extends.trans {h₁ h₂ h₃ : History Node Entry} (a : Extends h₁ h₂) (b : Extends h₂ h₃) :
    Extends h₁ h₃ where
  cur n := Nat.le_trans (a.cur n) (b.cur n)
  stood T n L e := b.stood T n L (a.stood T n L e)
  vote T v p e := b.vote T v p (a.vote T v p e)
  leader T c e := b.leader T c (a.leader T c e)
  electors T c e := (b.electors T c (a.leader T c e)).trans (a.electors T c e)
  book T := (a.book T).trans (b.book T)
  ack n T := Nat.le_trans (a.ack n T) (b.ack n T)

/-- Everything `h` and `h'` record about the node `m` itself is the same. -/
structure SameAt (m : Node) (h h' : History Node Entry) : Prop where
  cur : h'.cur m = h.cur m
  log : h'.log m = h.log m
  stood : ∀ T, h'.stood (T, m) = h.stood (T, m)
  vote : ∀ T, h'.vote (T, m) = h.vote (T, m)
  leads : ∀ T, h'.leader T = some m ↔ h.leader T = some m

theorem SameAt.refl (m : Node) (h : History Node Entry) : SameAt m h h :=
  ⟨rfl, rfl, fun _ => rfl, fun _ => rfl, fun _ => Iff.rfl⟩

theorem SameAt.trans {m : Node} {h₁ h₂ h₃ : History Node Entry} (a : SameAt m h₁ h₂)
    (b : SameAt m h₂ h₃) : SameAt m h₁ h₃ where
  cur := b.cur.trans a.cur
  log := b.log.trans a.log
  stood T := (b.stood T).trans (a.stood T)
  vote T := (b.vote T).trans (a.vote T)
  leads T := (b.leads T).trans (a.leads T)

end Consensus
