import Mathlib.Data.List.Basic

/-!
# Consumers of a stream that arrives in pieces

A buffer grows at its end; a parser takes messages from its front and a consumer reacts to each,
until the parser needs more, rejects the buffer, or the consumer stops.

* `Stable` — the laws of an incremental parser: a verdict other than "more" does not depend on what
  follows, and a message takes up room.
* `drain` — parse and react as long as there are messages; `drainAll` gives it the rounds it needs.
* `drainAll_append` — **draining a longer buffer is draining its beginning and going on with what
  is left**; everything about pieces follows from this.
* `Consumed` — the messages that were taken from a buffer one by one; `drainAll_consumed`: a consumer
  that has not stopped has taken all that there are.
-/

set_option autoImplicit false

namespace Incremental

variable {α M σ ω : Type}

/-- Outcome of one attempt at the front of a buffer. -/
inductive Parse (α M : Type) where
  | more
  | done (m : M) (rest : List α)
  | bad

structure Stable (parse : List α → Parse α M) : Prop where
  done : ∀ {b m rest}, parse b = .done m rest → ∀ x, parse (b ++ x) = .done m (rest ++ x)
  bad : ∀ {b}, parse b = .bad → ∀ x, parse (b ++ x) = .bad
  shrinks : ∀ {b m rest}, parse b = .done m rest → rest.length < b.length

/-- What a consumer does with one message. -/
structure Reaction (σ ω : Type) where
  state : σ
  out : List ω
  goOn : Bool

/-- Where draining has led: the consumer's state, its output, and the buffer that is left; `none`
once it has stopped. -/
structure Drained (α σ ω : Type) where
  state : σ
  out : List ω
  buffer : Option (List α)

/-- Put earlier output in front. -/
def Drained.after (out : List ω) (d : Drained α σ ω) : Drained α σ ω :=
  ⟨d.state, out ++ d.out, d.buffer⟩

/-- At most `fuel` rounds. -/
def drain (parse : List α → Parse α M) (react : σ → M → Reaction σ ω) :
    Nat → σ → List α → Drained α σ ω
  | 0, s, b => ⟨s, [], some b⟩
  | fuel + 1, s, b =>
    match parse b with
    | .more => ⟨s, [], some b⟩
    | .bad => ⟨s, [], none⟩
    | .done m rest =>
      let r := react s m
      if r.goOn then (drain parse react fuel r.state rest).after r.out else ⟨r.state, r.out, none⟩

/-- All rounds: every message takes at least one symbol. -/
def drainAll (parse : List α → Parse α M) (react : σ → M → Reaction σ ω) (s : σ) (b : List α) :
    Drained α σ ω :=
  drain parse react (b.length + 1) s b

/-- Go on with more symbols. -/
def Drained.more (parse : List α → Parse α M) (react : σ → M → Reaction σ ω)
    (d : Drained α σ ω) (x : List α) : Drained α σ ω :=
  match d.buffer with
  | none => d
  | some b => (drainAll parse react d.state (b ++ x)).after d.out

section Laws

variable {parse : List α → Parse α M} {react : σ → M → Reaction σ ω}

/-- Rounds beyond those that are needed change nothing. -/
theorem drain_fuel (H : Stable parse) : ∀ {n k : Nat} (s : σ) (b : List α), b.length < n →
    b.length < k → drain parse react n s b = drain parse react k s b
  | 0, _, _, _, hn, _ => by omega
  | _, 0, _, _, _, hk => by omega
  | n + 1, k + 1, s, b, hn, hk => by
    simp only [drain]
    split
    · rfl
    · rfl
    · rename_i m rest hparse
      have hrest := H.shrinks hparse
      rw [drain_fuel H (react s m).state rest (by omega : rest.length < n)
        (by omega : rest.length < k)]

theorem drainAll_more {s : σ} {b : List α} (h : parse b = .more) :
    drainAll parse react s b = ⟨s, [], some b⟩ := by
  simp only [drainAll, drain, h]

theorem drainAll_bad {s : σ} {b : List α} (h : parse b = .bad) :
    drainAll parse react s b = ⟨s, [], none⟩ := by
  simp only [drainAll, drain, h]

theorem drainAll_done (H : Stable parse) {s : σ} {b rest : List α} {m : M}
    (h : parse b = .done m rest) :
    drainAll parse react s b =
      if (react s m).goOn then (drainAll parse react (react s m).state rest).after (react s m).out
      else ⟨(react s m).state, (react s m).out, none⟩ := by
  have hrest := H.shrinks h
  rw [drainAll, drain]
  simp only [h]
  rw [drain_fuel H (react s m).state rest hrest (Nat.lt_succ_self rest.length)]
  rfl

theorem Drained.more_after (out : List ω) (d : Drained α σ ω) (x : List α) :
    (d.after out).more parse react x = (d.more parse react x).after out := by
  cases hb : d.buffer with
  | none => simp only [Drained.more, Drained.after, hb]
  | some b =>
    simp only [Drained.more, Drained.after, hb, List.append_assoc]

/-- **Draining a longer buffer is draining its beginning and going on with what is left.** -/
theorem drainAll_append (H : Stable parse) (s : σ) (b x : List α) :
    drainAll parse react s (b ++ x) = (drainAll parse react s b).more parse react x := by
  induction hn : b.length using Nat.strongRecOn generalizing s b with
  | ind n ih =>
    cases hparse : parse b with
    | more =>
      rw [drainAll_more hparse]
      rfl
    | bad =>
      rw [drainAll_bad hparse, drainAll_bad (H.bad hparse x)]
      rfl
    | done m rest =>
      have hrest := H.shrinks hparse
      rw [drainAll_done H hparse, drainAll_done H (H.done hparse x)]
      split
      · rw [ih rest.length (by omega) _ rest rfl, Drained.more_after]
      · rfl

/-- The messages of a buffer are taken one by one, with their reactions, until more is needed. -/
inductive Consumed (parse : List α → Parse α M) (react : σ → M → Reaction σ ω) :
    σ → List α → List ω → List α → Prop where
  | stop {s : σ} {b : List α} (h : parse b = .more) : Consumed parse react s b [] b
  | take {s : σ} {b b' rest : List α} {m : M} {out : List ω} (h : parse b = .done m b')
      (hgo : (react s m).goOn = true) (hrest : Consumed parse react (react s m).state b' out rest) :
    Consumed parse react s b ((react s m).out ++ out) rest

/-- **A consumer that has not stopped has taken every message.** -/
theorem drainAll_consumed (H : Stable parse) {s : σ} {b rest : List α}
    (h : (drainAll parse react s b).buffer = some rest) :
    Consumed parse react s b (drainAll parse react s b).out rest := by
  induction hn : b.length using Nat.strongRecOn generalizing s b with
  | ind n ih =>
    cases hparse : parse b with
    | more =>
      rw [drainAll_more hparse] at h ⊢
      cases h
      exact .stop hparse
    | bad =>
      rw [drainAll_bad hparse] at h
      cases h
    | done m b' =>
      have hlt := H.shrinks hparse
      rw [drainAll_done H hparse] at h ⊢
      split at h
      · rename_i hgo
        rw [if_pos hgo]
        exact .take hparse hgo (ih b'.length (by omega) h rfl)
      · cases h

end Laws

end Incremental
