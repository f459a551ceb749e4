import Mathlib.Data.List.Basic

/-!
# Reading through a system call

A file is read by calls that may deliver less than they were asked for, be interrupted, or fail.

* `Source` — what is left of the file, and the results of the calls to come.
* `Source.readSome` — the loop that asks until it has what it wants, the file ends, or a call
  fails; it does not tell the last two apart.
* `readSome_spec` — it delivers what the file holds, or a call has failed before the end of the
  file and something is missing.
-/

set_option autoImplicit false

namespace Reading

variable {α : Type}

/-- Result of one call.  A call that succeeds delivers at least one symbol if there is one;
`upTo more` delivers at most `more + 1`. -/
inductive ReadResult where
  | upTo (more : Nat)
  | interrupted
  | failed
  deriving DecidableEq, Repr

/-- An open file: the symbols behind its offset and the results of the calls to come (calls behind
the end of `schedule` deliver what they are asked for).  `failedEarly` is a history variable: a call
has failed while there were symbols left. -/
structure Source (α : Type) where
  unread : List α
  schedule : List ReadResult := []
  failedEarly : Bool := false

/-- Ask for `len` symbols: an interrupted call is made again, a call that fails or finds the end of
the file ends the loop. -/
def readLoop (failedEarly : Bool) : List ReadResult → Nat → List α → List α × Source α
  | schedule, 0, unread => ([], ⟨unread, schedule, failedEarly⟩)
  | [], len + 1, unread => (unread.take (len + 1), ⟨unread.drop (len + 1), [], failedEarly⟩)
  | .interrupted :: schedule, len + 1, unread => readLoop failedEarly schedule (len + 1) unread
  | .failed :: schedule, _ + 1, unread => ([], ⟨unread, schedule, failedEarly || !unread.isEmpty⟩)
  | .upTo more :: schedule, len + 1, unread =>
    if unread.isEmpty then ([], ⟨unread, schedule, failedEarly⟩)
    else
      let got := unread.take (min (more + 1) (len + 1))
      let next := readLoop failedEarly schedule (len + 1 - min (more + 1) (len + 1))
        (unread.drop (min (more + 1) (len + 1)))
      (got ++ next.1, next.2)

/-- Read `len` symbols, or fewer. -/
def Source.readSome (src : Source α) (len : Nat) : List α × Source α :=
  readLoop src.failedEarly src.schedule len src.unread

/-- What the loop does, call by call. -/
theorem readLoop_spec (failedEarly : Bool) :
    ∀ (schedule : List ReadResult) (len : Nat) (unread : List α),
      ((readLoop failedEarly schedule len unread).1 = unread.take len ∧
          (readLoop failedEarly schedule len unread).2.unread = unread.drop len ∧
          (readLoop failedEarly schedule len unread).2.failedEarly = failedEarly) ∨
        ((readLoop failedEarly schedule len unread).1.length < len ∧
          (readLoop failedEarly schedule len unread).2.failedEarly = true) := by
  intro schedule len unread
  induction schedule, len, unread using readLoop.induct failedEarly with
  | case1 schedule unread => simp [readLoop]
  | case2 unread len => simp [readLoop]
  | case3 schedule len unread ih => simpa only [readLoop] using ih
  | case4 schedule len unread =>
    cases unread with
    | nil => simp [readLoop]
    | cons a unread => simp [readLoop]
  | case5 more schedule len unread hempty =>
    have hnil : unread = [] := List.isEmpty_iff.mp hempty
    simp [readLoop, hnil]
  | case6 more schedule len unread hempty ih =>
    rw [readLoop, if_neg hempty]
    simp only [Nat.succ_eq_add_one]
    generalize hk : min (more + 1) (len + 1) = k at ih ⊢
    have hsplit : len + 1 = k + (len + 1 - k) := by omega
    rcases ih with ⟨hgot, hrest, hfailed⟩ | ⟨hgot, hfailed⟩
    · left
      refine ⟨?_, ?_, hfailed⟩
      · conv_rhs => rw [hsplit, List.take_add]
        rw [hgot]
      · conv_rhs => rw [hsplit]
        rw [hrest, List.drop_drop]
    · right
      refine ⟨?_, hfailed⟩
      have hle := List.length_take_le k unread
      rw [List.length_append]
      omega

/-- **All that was asked for and is there, or a failure before the end and less than that.** -/
theorem readSome_spec (src : Source α) (len : Nat) :
    ((src.readSome len).1 = src.unread.take len ∧
        (src.readSome len).2.unread = src.unread.drop len ∧
        (src.readSome len).2.failedEarly = src.failedEarly) ∨
      ((src.readSome len).1.length < len ∧ (src.readSome len).2.failedEarly = true) :=
  readLoop_spec src.failedEarly src.schedule len src.unread

theorem readLoop_mono (failedEarly : Bool) :
    ∀ (schedule : List ReadResult) (len : Nat) (unread : List α),
      (∀ x ∈ (readLoop failedEarly schedule len unread).2.schedule, x ∈ schedule) ∧
        ((readLoop failedEarly schedule len unread).2.failedEarly = true →
          failedEarly = true ∨ .failed ∈ schedule) := by
  intro schedule len unread
  induction schedule, len, unread using readLoop.induct failedEarly with
  | case1 schedule unread =>
    rw [readLoop]
    exact ⟨fun x hx => hx, fun h => Or.inl h⟩
  | case2 unread len => exact ⟨fun x hx => hx, fun h => Or.inl h⟩
  | case3 schedule len unread ih =>
    simp only [readLoop]
    refine ⟨fun x hx => List.mem_cons_of_mem _ (ih.1 x hx), fun h => ?_⟩
    exact (ih.2 h).imp_right (List.mem_cons_of_mem _)
  | case4 schedule len unread =>
    exact ⟨fun x hx => List.mem_cons_of_mem _ hx, fun _ => Or.inr List.mem_cons_self⟩
  | case5 more schedule len unread hempty =>
    rw [readLoop, if_pos hempty]
    exact ⟨fun x hx => List.mem_cons_of_mem _ hx, fun h => Or.inl h⟩
  | case6 more schedule len unread hempty ih =>
    rw [readLoop, if_neg hempty]
    refine ⟨fun x hx => List.mem_cons_of_mem _ (ih.1 x hx), fun h => ?_⟩
    exact (ih.2 h).imp_right (List.mem_cons_of_mem _)

/-- A source none of whose calls will fail, or has failed. -/
structure Source.Reliable (src : Source α) : Prop where
  schedule : .failed ∉ src.schedule
  failedEarly : src.failedEarly = false

/-- A reliable source stays so. -/
theorem Source.Reliable.readSome {src : Source α} (h : src.Reliable) (len : Nat) :
    (src.readSome len).2.Reliable := by
  obtain ⟨hsub, hfail⟩ := readLoop_mono src.failedEarly src.schedule len src.unread
  refine ⟨fun hmem => h.schedule (hsub _ hmem), ?_⟩
  cases hf : (src.readSome len).2.failedEarly with
  | false => rfl
  | true =>
    rcases hfail hf with hold | hmem
    · rw [h.failedEarly] at hold
      cases hold
    · exact absurd hmem h.schedule

end Reading
