import Mathlib.Data.List.Basic

/-!
# Objects and their transcripts

An object carries out one operation at a time: `step s op` is the answer and the next state.

* `after`, `transcript` — the state after a list of operations; the answers given on the way, each
  with a view of the state it left.
* `Simulates` — a relation between the states of two objects that all operations keep, with equal
  answers; **related objects have the same transcripts** (`Simulates.transcript_eq`).
-/

set_option autoImplicit false

namespace Objects

variable {S T Op Ans V : Type}

/-- The state after the operations. -/
def after (step : S → Op → Ans × S) (s : S) (ops : List Op) : S :=
  ops.foldl (fun s op => (step s op).2) s

/-- Every answer, with a view of the state right after it. -/
def transcript (step : S → Op → Ans × S) (view : S → V) : S → List Op → List (Ans × V)
  | _, [] => []
  | s, op :: ops => ((step s op).1, view (step s op).2) :: transcript step view (step s op).2 ops

/-- One operation answers alike in related states and leaves related states. -/
structure Simulates (step : S → Op → Ans × S) (spec : T → Op → Ans × T) (R : S → T → Prop) :
    Prop where
  answer : ∀ {s t}, R s t → ∀ op, (step s op).1 = (spec t op).1
  next : ∀ {s t}, R s t → ∀ op, R (step s op).2 (spec t op).2

variable {step : S → Op → Ans × S} {spec : T → Op → Ans × T} {R : S → T → Prop}

theorem Simulates.after (H : Simulates step spec R) (ops : List Op) {s : S} {t : T} (h : R s t) :
    R (after step s ops) (after spec t ops) := by
  induction ops generalizing s t with
  | nil => exact h
  | cons op ops ih => exact ih (H.next h op)

/-- **Related objects give the same answers**, and look the same after each, if related states look
the same. -/
theorem Simulates.transcript_eq (H : Simulates step spec R) {view : S → V} {specView : T → V}
    (hview : ∀ {s t}, R s t → view s = specView t) (ops : List Op) {s : S} {t : T} (h : R s t) :
    transcript step view s ops = transcript spec specView t ops := by
  induction ops generalizing s t with
  | nil => rfl
  | cons op ops ih =>
    have hnext := H.next h op
    rw [transcript, transcript, H.answer h op, hview hnext, ih hnext]

end Objects
