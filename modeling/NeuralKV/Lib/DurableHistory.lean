import Mathlib.Data.List.Nodup
import NeuralKV.Lib.Objects

/-!
# Histories of an object that may crash

What the clients of a shared object see: calls, answers and crashes, in the order in which they
happen.  Some answers settle an operation; others, such as a failed write, leave it open whether the
operation takes effect.

* `Over`, `Precedes` — an operation is over once it has a settling answer or the object has crashed
  since it was called; it precedes the operations called after that.
* `Serializes` — an order of operations, each with its answer, that explains a history: every
  settled operation is in it, no operation is in it twice or stands behind one that it precedes, and
  the answers are those of the object that carries out one operation at a time.
* `Serializes.event`, `Serializes.effect` — **the two rules by which an order grows**: with
  what happens, and with an operation that takes effect.
* `Unsettled` — an operation that may still take effect; what happens meanwhile leaves it so.
-/

set_option autoImplicit false

namespace DurableHistory

open Objects

variable {S Op Ans : Type}

/-- What can be seen of an object.  Operations are told apart by their numbers. -/
inductive Observation (Op Ans : Type) where
  | called (id : Nat) (op : Op)
  | returned (id : Nat) (ans : Ans)
  | crashed
  deriving DecidableEq, Repr

/-- An operation that takes effect, and its answer. -/
structure Placement (Op Ans : Type) where
  id : Nat
  op : Op
  ans : Ans
  deriving DecidableEq, Repr

/-! ## Real time -/

section RealTime

variable (settles : Ans → Prop)

/-- The operation has an answer that settles it, or the object has crashed since it was called. -/
inductive Over (h : List (Observation Op Ans)) (id : Nat) : Prop where
  | returned {ans : Ans} (hans : settles ans) (hmem : .returned id ans ∈ h)
  | crashed {before after : List (Observation Op Ans)} {op : Op}
      (heq : h = before ++ .crashed :: after) (hcalled : .called id op ∈ before)

/-- Operation `b` was called after `a` was over. -/
def Precedes (h : List (Observation Op Ans)) (a b : Nat) : Prop :=
  ∃ before after, h = before ++ after ∧ Over settles before a ∧ ∃ op, .called b op ∈ after

variable {settles} {h : List (Observation Op Ans)} {e : Observation Op Ans} {a b : Nat}

theorem Over.append (ho : Over settles h a) (more : List (Observation Op Ans)) :
    Over settles (h ++ more) a := by
  cases ho with
  | returned hans hmem => exact .returned hans (List.mem_append_left _ hmem)
  | @crashed before after op heq hcalled =>
    have hmore : h ++ more = before ++ .crashed :: (after ++ more) := by
      rw [heq]
      simp
    exact .crashed hmore hcalled

theorem Over.of_concat (ho : Over settles (h ++ [e]) a) :
    Over settles h a ∨ (∃ ans, settles ans ∧ e = .returned a ans) ∨
      (e = .crashed ∧ ∃ op, .called a op ∈ h) := by
  cases ho with
  | returned hans hmem =>
    rcases List.mem_append.mp hmem with hold | hlast
    · exact Or.inl (.returned hans hold)
    · exact Or.inr (Or.inl ⟨_, hans, (List.mem_singleton.mp hlast).symm⟩)
  | @crashed before after op heq hcalled =>
    rcases List.eq_nil_or_concat after with rfl | ⟨after', x, rfl⟩
    · obtain ⟨rfl, he⟩ := List.append_inj' heq rfl
      exact Or.inr (Or.inr ⟨List.singleton_inj.mp he, op, hcalled⟩)
    · rw [List.concat_eq_append, ← List.cons_append, ← List.append_assoc] at heq
      obtain ⟨hinitial, -⟩ := List.append_inj' heq rfl
      exact Or.inl (.crashed hinitial hcalled)

theorem Precedes.of_concat (hp : Precedes settles (h ++ [e]) a b) :
    Precedes settles h a b ∨ (Over settles h a ∧ ∃ op, e = .called b op) := by
  obtain ⟨before, after, heq, hover, op, hcalled⟩ := hp
  rcases List.eq_nil_or_concat after with rfl | ⟨after', x, rfl⟩
  · cases hcalled
  · rw [List.concat_eq_append] at heq hcalled
    rw [← List.append_assoc] at heq
    obtain ⟨rfl, hx⟩ := List.append_inj' heq rfl
    rcases List.mem_append.mp hcalled with hold | hlast
    · exact Or.inl ⟨before, after', rfl, hover, op, hold⟩
    · refine Or.inr ⟨hover.append after', op, ?_⟩
      rw [List.singleton_inj.mp hx, List.mem_singleton.mp hlast]

end RealTime

/-! ## Orders -/

/-- Every answer is that of the object in the state that the operations before it have left. -/
def Legal (step : S → Op → Ans × S) : S → List (Placement Op Ans) → Prop
  | _, [] => True
  | s, x :: xs => (step s x.op).1 = x.ans ∧ Legal step (step s x.op).2 xs

/-- The state that a sequence of operations leaves. -/
def stateAfter (step : S → Op → Ans × S) (s : S) (order : List (Placement Op Ans)) : S :=
  after step s (order.map Placement.op)

/-- The numbers of the operations. -/
def ids (order : List (Placement Op Ans)) : List Nat := order.map Placement.id

/-- An order in which the operations of a history can have taken effect. -/
structure Serializes (step : S → Op → Ans × S) (s₀ : S) (settles : Ans → Prop)
    (h : List (Observation Op Ans)) (order : List (Placement Op Ans)) : Prop where
  once : (ids order).Nodup
  called : ∀ x ∈ order, .called x.id x.op ∈ h
  answered : ∀ id ans, .returned id ans ∈ h → settles ans → ∃ x ∈ order, x.id = id ∧ x.ans = ans
  realTime : order.Pairwise fun a b => ¬ Precedes settles h b.id a.id
  legal : Legal step s₀ order

section Growth

variable {step : S → Op → Ans × S} {s₀ s : S} {settles : Ans → Prop}
  {h : List (Observation Op Ans)} {order : List (Placement Op Ans)} {x : Placement Op Ans}

theorem stateAfter_concat :
    stateAfter step s (order ++ [x]) = (step (stateAfter step s order) x.op).2 := by
  simp [stateAfter, after]

theorem legal_append {more : List (Placement Op Ans)} : Legal step s (order ++ more) ↔
    Legal step s order ∧ Legal step (stateAfter step s order) more := by
  induction order generalizing s with
  | nil => simp [Legal, stateAfter, after]
  | cons y ys ih =>
    have hstate : stateAfter step s (y :: ys) = stateAfter step (step s y.op).2 ys := rfl
    rw [List.cons_append, Legal, Legal, ih, hstate, and_assoc]

theorem legal_concat : Legal step s (order ++ [x]) ↔
    Legal step s order ∧ (step (stateAfter step s order) x.op).1 = x.ans := by
  rw [legal_append]
  simp [Legal]

theorem mem_ids {id : Nat} : id ∈ ids order ↔ ∃ x ∈ order, x.id = id := List.mem_map

namespace Serializes

theorem nil : Serializes step s₀ settles ([] : List (Observation Op Ans)) [] where
  once := List.nodup_nil
  called x hx := by cases hx
  answered id ans hmem := by cases hmem
  realTime := .nil
  legal := trivial

/-- **Something happens**: a call of an operation that has not taken effect, an answer that settles
nothing or is the one in the order, or a crash. -/
theorem event (L : Serializes step s₀ settles h order) {e : Observation Op Ans}
    (hcall : ∀ id op, e = .called id op → id ∉ ids order)
    (hreturn : ∀ id ans, e = .returned id ans → settles ans →
      ∃ x ∈ order, x.id = id ∧ x.ans = ans) :
    Serializes step s₀ settles (h ++ [e]) order := by
  refine ⟨L.once, fun x hx => List.mem_append_left _ (L.called x hx), ?_, ?_, L.legal⟩
  · intro id ans hmem hans
    rcases List.mem_append.mp hmem with hold | hlast
    · exact L.answered id ans hold hans
    · exact hreturn id ans (List.mem_singleton.mp hlast).symm hans
  · refine L.realTime.imp_of_mem fun {a b} ha hb hp hafter => ?_
    rcases hafter.of_concat with hbefore | ⟨-, op, he⟩
    · exact hp hbefore
    · exact hcall a.id op he (mem_ids.mpr ⟨a, ha, rfl⟩)

/-- **An operation takes effect**, behind everything that has taken effect before. -/
theorem effect (L : Serializes step s₀ settles h order) (hcalled : .called x.id x.op ∈ h)
    (hnew : x.id ∉ ids order) (hlast : ∀ b, ¬ Precedes settles h x.id b)
    (hans : (step (stateAfter step s₀ order) x.op).1 = x.ans) :
    Serializes step s₀ settles h (order ++ [x]) := by
  refine ⟨?_, ?_, ?_, ?_, legal_concat.mpr ⟨L.legal, hans⟩⟩
  · rw [ids, List.map_append]
    refine List.nodup_append.mpr ⟨L.once, List.nodup_singleton _, ?_⟩
    rintro a ha b hb rfl
    rw [List.mem_singleton.mp hb] at ha
    exact hnew ha
  · intro y hy
    rcases List.mem_append.mp hy with hold | hnow
    · exact L.called y hold
    · rw [List.mem_singleton.mp hnow]
      exact hcalled
  · intro id ans hmem hsettled
    obtain ⟨y, hy, heq⟩ := L.answered id ans hmem hsettled
    exact ⟨y, List.mem_append_left _ hy, heq⟩
  · refine List.pairwise_append.mpr ⟨L.realTime, List.pairwise_singleton _ _, ?_⟩
    intro a _ b hb
    rw [List.mem_singleton.mp hb]
    exact hlast a.id

/-- An operation with a number that no call has is not over. -/
theorem not_over (L : Serializes step s₀ settles h order) {id : Nat}
    (hfresh : ∀ op, .called id op ∉ h) : ¬ Over settles h id := by
  intro hover
  cases hover with
  | returned hans hmem =>
    obtain ⟨x, hx, hid, -⟩ := L.answered id _ hmem hans
    refine hfresh x.op ?_
    rw [← hid]
    exact L.called x hx
  | @crashed before after op heq hcalled =>
    refine hfresh op ?_
    rw [heq]
    exact List.mem_append_left _ hcalled

theorem not_mem_ids (L : Serializes step s₀ settles h order) {id : Nat}
    (hfresh : ∀ op, .called id op ∉ h) : id ∉ ids order := by
  intro hmem
  obtain ⟨x, hx, hid⟩ := mem_ids.mp hmem
  refine hfresh x.op ?_
  rw [← hid]
  exact L.called x hx

end Serializes

/-! ## Operations that may still take effect -/

/-- The operation has not taken effect and may do so now, behind all others; while the object is up,
the operation is not over. -/
structure Unsettled (settles : Ans → Prop) (up : Bool) (h : List (Observation Op Ans))
    (order : List (Placement Op Ans)) (id : Nat) : Prop where
  new : id ∉ ids order
  last : ∀ b, ¬ Precedes settles h id b
  current : up = true → ¬ Over settles h id

namespace Unsettled

variable {up : Bool} {id : Nat}

/-- An operation that is called now. -/
theorem of_call (L : Serializes step s₀ settles h order) (hfresh : ∀ op, .called id op ∉ h)
    (op : Op) : Unsettled settles true (h ++ [.called id op]) order id := by
  have hover := L.not_over hfresh
  refine ⟨L.not_mem_ids hfresh, fun b hp => ?_, fun _ hafter => ?_⟩
  · rcases hp.of_concat with ⟨before, after, heq, hbefore, -⟩ | ⟨hnow, -⟩
    · refine hover ?_
      rw [heq]
      exact hbefore.append after
    · exact hover hnow
  · rcases hafter.of_concat with hbefore | ⟨ans, -, he⟩ | ⟨he, -⟩
    · exact hover hbefore
    · cases he
    · cases he

/-- Whatever happens but a crash, if settling answers are given to operations that have taken
effect. -/
theorem event (U : Unsettled settles true h order id) {e : Observation Op Ans}
    (hcrash : e ≠ .crashed)
    (hreturn : ∀ id ans, e = .returned id ans → settles ans →
      ∃ x ∈ order, x.id = id ∧ x.ans = ans) :
    Unsettled settles true (h ++ [e]) order id := by
  have hover := U.current rfl
  refine ⟨U.new, fun b hp => ?_, fun _ hafter => ?_⟩
  · rcases hp.of_concat with hbefore | ⟨hnow, -⟩
    · exact U.last b hbefore
    · exact hover hnow
  · rcases hafter.of_concat with hbefore | ⟨ans, hans, he⟩ | ⟨he, -⟩
    · exact hover hbefore
    · obtain ⟨x, hx, hid, -⟩ := hreturn id ans he hans
      exact U.new (mem_ids.mpr ⟨x, hx, hid⟩)
    · exact hcrash he

/-- After a crash the operation may take effect until the next call. -/
theorem crash (U : Unsettled settles up h order id) :
    Unsettled settles false (h ++ [.crashed]) order id := by
  refine ⟨U.new, fun b hp => ?_, fun hup => by cases hup⟩
  rcases hp.of_concat with hbefore | ⟨-, op, he⟩
  · exact U.last b hbefore
  · cases he

theorem effect (U : Unsettled settles up h order id) (hne : id ≠ x.id) :
    Unsettled settles up h (order ++ [x]) id := by
  refine ⟨fun hmem => ?_, U.last, U.current⟩
  rw [ids, List.map_append] at hmem
  rcases List.mem_append.mp hmem with hold | hnow
  · exact U.new hold
  · exact hne (List.mem_singleton.mp hnow)

end Unsettled

end Growth

end DurableHistory
