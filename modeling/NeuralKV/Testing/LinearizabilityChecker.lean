import Mathlib.Data.List.Permutation
import NeuralKV.Lib.Linearizability
import NeuralKV.Lib.Text
import NeuralKV.Storage.ShardedKV

/-!
# The linearizability checker of the tests

Model of `src/testing/linearizability_checker.h`.  The checker does not search for a total order: it
looks, for each `GET`, for one `SET` that explains it, by comparing intervals.

* `check` — `LinearizabilityChecker::Check`, with the texts it returns.  A pointer into the history
  is a position, so two equal `SET`s are different writes.
* `check_eq_empty_iff` — a history passes exactly if each successful `GET` has an explanation.
* `checker_raises_no_false_alarm` — **a linearizable history passes.**
* `check_misses_inversion` — the converse fails: two `GET`s may see a concurrent `SET` and then its
  predecessor.
* `store_history_passes` — what clients of the sharded store record passes, whatever the overlaps.
-/

set_option autoImplicit false

namespace NeuralKV

open Linearizability Text

/-! ## The checker -/

inductive LinearizabilityOp.Kind where
  | kSet
  | kGet
  deriving DecidableEq, Repr

/-- `LinearizabilityOp`; `end_` is the field `end`. -/
structure LinearizabilityOp where
  clientId : Int := 0
  kind : LinearizabilityOp.Kind := .kGet
  value : Bytes := []
  ok : Bool := false
  start : Nat := 0
  end_ : Nat := 0
  deriving DecidableEq, Repr

/-- The writes that `Check` collects first. -/
def okSets (history : List LinearizabilityOp) : List LinearizabilityOp :=
  history.filter fun op => op.kind = .kSet && op.ok

/-- `is_candidate`. -/
def isCandidate (w g : LinearizabilityOp) : Bool :=
  w.end_ ≤ g.start || (w.start < g.end_ && w.end_ > g.start)

/-- `superseded`, for the write at position `i`. -/
def superseded (sets : List LinearizabilityOp) (i : Nat) (w g : LinearizabilityOp) : Bool :=
  sets.zipIdx.any fun (w2, j) => j != i && (w.end_ ≤ w2.start && w2.end_ ≤ g.start)

/-- `ever_written`. -/
def everWritten (sets : List LinearizabilityOp) (g : LinearizabilityOp) : Bool :=
  sets.any fun s => s.value = g.value

/-- `valid`. -/
def valid (sets : List LinearizabilityOp) (g : LinearizabilityOp) : Bool :=
  sets.zipIdx.any fun (w, i) => w.value = g.value && isCandidate w g && !superseded sets i w g

/-- One round of the loop over the history: the text `Check` returns there, if it does. -/
def violation (sets : List LinearizabilityOp) (g : LinearizabilityOp) : Option String :=
  if g.kind ≠ .kGet || !g.ok then none
  else if !everWritten sets g then
    some ("client " ++ toString g.clientId ++ " GET returned a value never written: '" ++
      shown g.value ++ "'")
  else if !valid sets g then
    some ("client " ++ toString g.clientId ++ " GET returned stale value '" ++ shown g.value ++ "'")
  else none

/-- `LinearizabilityChecker::Check`. -/
def check (history : List LinearizabilityOp) : String :=
  (history.findSome? (violation (okSets history))).getD ""

/-! ## What passes -/

/-- `w` explains what `g` returned: it wrote the value, it may have taken effect before `g` was
over, and no other write came between the two in real time. -/
structure Explains (sets : List LinearizabilityOp) (i : Nat) (w g : LinearizabilityOp) : Prop where
  write : sets[i]? = some w
  value : w.value = g.value
  candidate : w.end_ ≤ g.start ∨ (w.start < g.end_ ∧ g.start < w.end_)
  current : ∀ (j : Nat) w2, sets[j]? = some w2 → j ≠ i → w.end_ ≤ w2.start → ¬ w2.end_ ≤ g.start

theorem valid_iff {sets : List LinearizabilityOp} {g : LinearizabilityOp} :
    valid sets g = true ↔ ∃ i w, Explains sets i w g := by
  unfold valid
  rw [List.any_eq_true]
  constructor
  · rintro ⟨⟨w, i⟩, hmem, h⟩
    simp only [Bool.and_eq_true, decide_eq_true_eq, Bool.not_eq_true'] at h
    obtain ⟨⟨hvalue, hcandidate⟩, hcurrent⟩ := h
    refine ⟨i, w, List.mem_zipIdx_iff_getElem?.mp hmem, hvalue, ?_, ?_⟩
    · simpa [isCandidate] using hcandidate
    · intro j w2 hj hne hnewer hbefore
      have hmem2 : (w2, j) ∈ sets.zipIdx := List.mem_zipIdx_iff_getElem?.mpr hj
      have hfalse := (List.any_eq_false.mp hcurrent) (w2, j) hmem2
      simp [hne, hnewer, hbefore] at hfalse
  · rintro ⟨i, w, h⟩
    refine ⟨(w, i), List.mem_zipIdx_iff_getElem?.mpr h.write, ?_⟩
    have hcurrent : superseded sets i w g = false := by
      refine List.any_eq_false.mpr ?_
      rintro ⟨w2, j⟩ hmem2 hover
      simp only [Bool.and_eq_true, bne_iff_ne, decide_eq_true_eq] at hover
      exact h.current j w2 (List.mem_zipIdx_iff_getElem?.mp hmem2) hover.1 hover.2.1 hover.2.2
    have hcandidate : isCandidate w g = true := by
      simpa [isCandidate] using h.candidate
    simp [h.value, hcandidate, hcurrent]

theorem Explains.everWritten {sets : List LinearizabilityOp} {i : Nat} {w g : LinearizabilityOp}
    (h : Explains sets i w g) : everWritten sets g = true := by
  refine List.any_eq_true.mpr ⟨w, List.mem_of_getElem? h.write, ?_⟩
  simpa using h.value

theorem violation_eq_none_iff {sets : List LinearizabilityOp} {g : LinearizabilityOp} :
    violation sets g = none ↔ (g.kind = .kGet → g.ok = true → ∃ i w, Explains sets i w g) := by
  unfold violation
  by_cases hread : g.kind = .kGet ∧ g.ok = true
  · obtain ⟨hkind, hok⟩ := hread
    rw [if_neg (by simp [hkind, hok])]
    cases hvalid : valid sets g with
    | true =>
      obtain ⟨i, w, h⟩ := valid_iff.mp hvalid
      rw [if_neg (by simp [h.everWritten])]
      exact ⟨fun _ _ _ => ⟨i, w, h⟩, fun _ => rfl⟩
    | false =>
      have hnone : ¬ ∃ i w, Explains sets i w g := by
        rw [← valid_iff, hvalid]
        exact Bool.false_ne_true
      refine ⟨fun h => ?_, fun h => absurd (h hkind hok) hnone⟩
      split at h
      · cases h
      · cases h
  · refine ⟨fun _ hkind hok => absurd ⟨hkind, hok⟩ hread, fun _ => ?_⟩
    rw [if_pos]
    by_cases hkind : g.kind = .kGet
    · have hok : g.ok = false := by simpa [hkind] using hread
      simp [hok]
    · simp [hkind]

theorem violation_ne_empty {sets : List LinearizabilityOp} {g : LinearizabilityOp} {text : String}
    (h : violation sets g = some text) : text ≠ "" := by
  unfold violation at h
  split at h
  · cases h
  · split at h
    · cases h
      simp
    · split at h
      · cases h
        simp
      · cases h

/-- **A history passes exactly if every successful `GET` is explained by some `SET`.** -/
theorem check_eq_empty_iff {history : List LinearizabilityOp} :
    check history = "" ↔ ∀ g ∈ history, g.kind = .kGet → g.ok = true →
      ∃ i w, Explains (okSets history) i w g := by
  unfold check
  cases hfirst : history.findSome? (violation (okSets history)) with
  | none =>
    have hall := List.findSome?_eq_none_iff.mp hfirst
    exact ⟨fun _ g hg => violation_eq_none_iff.mp (hall g hg), fun _ => rfl⟩
  | some text =>
    obtain ⟨g, hg, htext⟩ := List.exists_of_findSome?_eq_some hfirst
    refine ⟨fun hempty => absurd hempty (violation_ne_empty htext), fun hall => ?_⟩
    rw [violation_eq_none_iff.mpr (hall g hg)] at htext
    cases htext

/-! ## Linearizable histories -/

/-- An operation as an access to the one key of the history. -/
def LinearizabilityOp.access (op : LinearizabilityOp) : Access Bytes :=
  match op.kind with
  | .kSet => .write op.value
  | .kGet => .read op.value

theorem mem_okSets_of_write {history : List LinearizabilityOp} {w : LinearizabilityOp} {v : Bytes}
    (hw : w ∈ history.filter fun op => op.ok) (hwrite : w.access = .write v) :
    w ∈ okSets history ∧ w.value = v := by
  obtain ⟨hmem, hok⟩ := List.mem_filter.mp hw
  unfold LinearizabilityOp.access at hwrite
  split at hwrite
  · rename_i hkind
    cases hwrite
    exact ⟨List.mem_filter.mpr ⟨hmem, by simp [hkind, hok]⟩, rfl⟩
  · cases hwrite

theorem write_of_mem_okSets {history : List LinearizabilityOp} {w : LinearizabilityOp}
    (hw : w ∈ okSets history) :
    w ∈ history.filter (fun op => op.ok) ∧ w.access = .write w.value := by
  obtain ⟨hmem, hset⟩ := List.mem_filter.mp hw
  simp only [Bool.and_eq_true, decide_eq_true_eq] at hset
  refine ⟨List.mem_filter.mpr ⟨hmem, hset.2⟩, ?_⟩
  simp [LinearizabilityOp.access, hset.1]

/-- A total order of the successful operations that respects real time and in which every `GET`
returns the value of the latest preceding `SET`. -/
def Linearizes (history order : List LinearizabilityOp) : Prop :=
  Linearization LinearizabilityOp.start LinearizabilityOp.end_ LinearizabilityOp.access
    (history.filter fun op => op.ok) order

/-- Time stamps as one shared counter hands them out. -/
structure Stamped (history : List LinearizabilityOp) : Prop where
  distinct : (history.flatMap fun op => [op.start, op.end_]).Nodup
  interval : ∀ op ∈ history, op.start < op.end_

theorem Stamped.end_ne_start {history : List LinearizabilityOp} (h : Stamped history)
    {a b : LinearizabilityOp} (ha : a ∈ history) (hb : b ∈ history) : a.end_ ≠ b.start := by
  by_cases hab : a = b
  · subst hab
    exact Nat.ne_of_gt (h.interval a ha)
  · have hpairs := (List.nodup_flatMap.mp h.distinct).2
    have : Std.Symm (Function.onFun List.Disjoint fun op : LinearizabilityOp =>
        [op.start, op.end_]) := ⟨fun _ _ hd => hd.symm⟩
    have hdisjoint : List.Disjoint [a.start, a.end_] [b.start, b.end_] := hpairs.forall ha hb hab
    intro heq
    refine @hdisjoint a.end_ (by simp) ?_
    rw [heq]
    simp

instance (history order : List LinearizabilityOp) : Decidable (Linearizes history order) :=
  inferInstanceAs (Decidable (Linearization _ _ _ _ _))

instance (history : List LinearizabilityOp) : Decidable (Stamped history) :=
  decidable_of_iff ((history.flatMap fun op => [op.start, op.end_]).Nodup ∧
    ∀ op ∈ history, op.start < op.end_) ⟨fun h => ⟨h.1, h.2⟩, fun h => ⟨h.distinct, h.interval⟩⟩

/-- The latest write before a `GET` in a linearization explains it to the checker. -/
theorem Linearizes.explained {history order : List LinearizabilityOp}
    (hlin : Linearizes history order) (hstamps : Stamped history) {g : LinearizabilityOp}
    (hg : g ∈ history) (hkind : g.kind = .kGet) (hok : g.ok = true) :
    ∃ i w, Explains (okSets history) i w g := by
  have hread : g.access = .read g.value := by simp [LinearizabilityOp.access, hkind]
  obtain ⟨w, hw, hwrite, hstart, hcurrent⟩ :=
    hlin.read_source (List.mem_filter.mpr ⟨hg, hok⟩) hread
  obtain ⟨hset, hvalue⟩ := mem_okSets_of_write hw hwrite
  obtain ⟨i, hi⟩ := List.mem_iff_getElem?.mp hset
  have hwhist := (List.mem_filter.mp hw).1
  refine ⟨i, w, hi, hvalue, ?_, ?_⟩
  · -- the write was invoked before the read was over, so it overlaps the read or precedes it
    have hne := hstamps.end_ne_start hg hwhist
    omega
  · intro j w2 hj _ hnewer hbefore
    obtain ⟨hw2, hwrite2⟩ := write_of_mem_okSets (List.mem_of_getElem? hj)
    have hw2hist := (List.mem_filter.mp hw2).1
    have hne := hstamps.end_ne_start hwhist hw2hist
    have hne2 := hstamps.end_ne_start hw2hist hg
    exact hcurrent w2 hw2 _ hwrite2 (by omega) (by omega)

/-- **The checker raises no false alarm**: a history with distinct time stamps passes if there is a
total order of its successful operations that respects real time and in which every `GET` returns
the value of the latest preceding `SET`.  Different `SET`s may write the same value. -/
theorem checker_raises_no_false_alarm {history order : List LinearizabilityOp}
    (hstamps : Stamped history) (hlin : Linearizes history order) : check history = "" := by
  rw [check_eq_empty_iff]
  intro g hg hkind hok
  exact hlin.explained hstamps hg hkind hok

/-- Two overlapping `SET`s of one value, a `GET` of it inside both, and a later `GET` of it during
the `SET` of another value. -/
theorem checker_passes_repeated_value :
    check
      [⟨2, .kGet, [97], true, 2, 3⟩, ⟨1, .kSet, [97], true, 1, 4⟩, ⟨0, .kSet, [97], true, 0, 5⟩,
        ⟨1, .kGet, [97], true, 7, 8⟩, ⟨0, .kSet, [98], true, 6, 9⟩] = "" := by
  have hlin : Linearizes
      [⟨2, .kGet, [97], true, 2, 3⟩, ⟨1, .kSet, [97], true, 1, 4⟩, ⟨0, .kSet, [97], true, 0, 5⟩,
        ⟨1, .kGet, [97], true, 7, 8⟩, ⟨0, .kSet, [98], true, 6, 9⟩]
      [⟨1, .kSet, [97], true, 1, 4⟩, ⟨2, .kGet, [97], true, 2, 3⟩, ⟨0, .kSet, [97], true, 0, 5⟩,
        ⟨1, .kGet, [97], true, 7, 8⟩, ⟨0, .kSet, [98], true, 6, 9⟩] := by decide
  exact checker_raises_no_false_alarm (by decide) hlin

/-- **Not every history that passes is linearizable**: a `GET` sees the value of a `SET` that is
still running, and a `GET` after it sees the value before. -/
theorem check_misses_inversion :
    ∃ history, Stamped history ∧ check history = "" ∧ ∀ order, ¬ Linearizes history order := by
  refine ⟨[⟨0, .kSet, [97], true, 0, 1⟩, ⟨0, .kSet, [98], true, 2, 9⟩,
    ⟨1, .kGet, [98], true, 3, 4⟩, ⟨1, .kGet, [97], true, 5, 6⟩], by decide, by decide, ?_⟩
  intro order hlin
  have hnone : ∀ order ∈ List.permutations' ([⟨0, .kSet, [97], true, 0, 1⟩,
      ⟨0, .kSet, [98], true, 2, 9⟩, ⟨1, .kGet, [98], true, 3, 4⟩, ⟨1, .kGet, [97], true, 5, 6⟩] :
        List LinearizabilityOp),
      ¬ Linearizes [⟨0, .kSet, [97], true, 0, 1⟩, ⟨0, .kSet, [98], true, 2, 9⟩,
        ⟨1, .kGet, [98], true, 3, 4⟩, ⟨1, .kGet, [97], true, 5, 6⟩] order := by
    decide +kernel
  exact hnone order (List.mem_permutations'.mpr hlin.total) hlin

/-! ## Histories of the store -/

/-- One call of a client for the key of the test: its kind, the value if it is a `SET`, the two
stamps, and the moment in between when the store carries it out. -/
structure TimedCall where
  clientId : Int
  kind : LinearizabilityOp.Kind
  value : Bytes
  start : Nat
  point : Nat
  end_ : Nat
  deriving DecidableEq, Repr

/-- A call on the store; the client records it if it succeeded. -/
def serveCall (key : Bytes) (kv : ShardedKV) (call : TimedCall) :
    Option LinearizabilityOp × ShardedKV :=
  match call.kind with
  | .kSet =>
    (if (kv.set key call.value).1.ok then
        some ⟨call.clientId, .kSet, call.value, true, call.start, call.end_⟩
      else none,
      (kv.set key call.value).2)
  | .kGet =>
    match kv.get key with
    | .ok value => (some ⟨call.clientId, .kGet, value, true, call.start, call.end_⟩, kv)
    | .error _ => (none, kv)

/-- What the clients record of calls that the store carries out in this order. -/
def recordedBy (key : Bytes) (kv : ShardedKV) : List TimedCall → List LinearizabilityOp
  | [] => []
  | call :: calls =>
    (serveCall key kv call).1.toList ++ recordedBy key (serveCall key kv call).2 calls

section Store

variable {key : Bytes} {kv : ShardedKV} {call : TimedCall}

theorem serveCall_unrecorded (h : (serveCall key kv call).1 = none) :
    (serveCall key kv call).2 = kv := by
  unfold serveCall at h ⊢
  split
  · rename_i hkind
    by_cases hkey : key = []
    · simp [ShardedKV.set, hkey]
    · simp [hkind, (kv.set_eq hkey call.value).1] at h
  · split <;> rfl

/-- A recorded call succeeded, has the stamps of the call, and is what a register does that holds
the value of the key. -/
theorem serveCall_recorded {op : LinearizabilityOp} (h : (serveCall key kv call).1 = some op) :
    op.ok = true ∧ (op.start, op.end_) = (call.start, call.end_) ∧
      op.access.Fits (kv.contents key) ∧
      (serveCall key kv call).2.contents key = op.access.apply (kv.contents key) := by
  have hkey : key ≠ [] := by
    rintro rfl
    unfold serveCall at h
    split at h <;> simp [ShardedKV.set, ShardedKV.get, ShardedKV.emptyKey, Status.ok] at h
  obtain ⟨hstatus, hcontents⟩ := kv.set_eq hkey call.value
  unfold serveCall at h ⊢
  split at h
  · rw [hstatus] at h
    cases h
    refine ⟨rfl, rfl, trivial, ?_⟩
    simp [hcontents, LinearizabilityOp.access, Access.apply]
  · rw [kv.get_eq hkey] at h
    cases hheld : kv.contents key with
    | none => simp [hheld] at h
    | some value =>
      rw [hheld] at h
      cases h
      refine ⟨rfl, rfl, rfl, ?_⟩
      simp [kv.get_eq hkey, hheld, LinearizabilityOp.access, Access.apply]

theorem recordedBy_ok (calls : List TimedCall) : ∀ op ∈ recordedBy key kv calls, op.ok = true := by
  induction calls generalizing kv with
  | nil => simp [recordedBy]
  | cons call calls ih =>
    intro op hop
    rcases List.mem_append.mp hop with hhead | htail
    · exact (serveCall_recorded (Option.mem_toList.mp hhead)).1
    · exact ih op htail

theorem recordedBy_stamps (calls : List TimedCall) :
    ((recordedBy key kv calls).map fun op => (op.start, op.end_)).Sublist
      (calls.map fun call => (call.start, call.end_)) := by
  induction calls generalizing kv with
  | nil => exact List.Sublist.refl _
  | cons call calls ih =>
    rw [recordedBy, List.map_append, List.map_cons]
    cases hserved : (serveCall key kv call).1 with
    | none => exact ih.cons _
    | some op =>
      rw [Option.toList_some, List.map_singleton, (serveCall_recorded hserved).2.1]
      exact ih.cons_cons _

theorem recordedBy_legal (calls : List TimedCall) :
    LegalFrom LinearizabilityOp.access (kv.contents key) (recordedBy key kv calls) := by
  induction calls generalizing kv with
  | nil => trivial
  | cons call calls ih =>
    rw [recordedBy]
    cases hserved : (serveCall key kv call).1 with
    | none =>
      rw [serveCall_unrecorded hserved]
      exact ih
    | some op =>
      obtain ⟨_, _, hfits, hnext⟩ := serveCall_recorded hserved
      refine ⟨hfits, ?_⟩
      rw [← hnext]
      exact ih

end Store

/-- **Every history of the sharded store passes the check**: each call takes effect at one moment
between its two stamps, and the clients record, in any order, the calls that succeeded. -/
theorem store_history_passes (hash : Bytes → Nat) (key : Bytes) {calls : List TimedCall}
    (horder : calls.Pairwise fun a b => a.point < b.point)
    (hinside : ∀ call ∈ calls, call.start < call.point ∧ call.point < call.end_)
    {history : List LinearizabilityOp} (hstamps : Stamped history)
    (hhistory : history.Perm (recordedBy key (ShardedKV.empty hash) calls)) :
    check history = "" := by
  have hok : ∀ op ∈ history, op.ok = true := fun op hop =>
    recordedBy_ok calls op (hhistory.mem_iff.mp hop)
  have hpairs :
      (calls.map fun call => (call.start, call.end_)).Pairwise fun a b => ¬ b.2 < a.1 := by
    refine List.pairwise_map.mpr (horder.imp_of_mem ?_)
    intro a b ha hb hlt
    have hina := hinside a ha
    have hinb := hinside b hb
    omega
  have hlin : Linearizes history (recordedBy key (ShardedKV.empty hash) calls) := by
    refine linearization_iff.mpr ⟨?_, ?_, ?_, ?_⟩
    · rw [List.filter_eq_self.mpr hok]
      exact hhistory.symm
    · intro op hop
      have hinterval := hstamps.interval op (hhistory.mem_iff.mpr hop)
      omega
    · exact List.pairwise_map.mp (hpairs.sublist (recordedBy_stamps calls))
    · have hlegal : LegalFrom LinearizabilityOp.access ((ShardedKV.empty hash).contents key)
          (recordedBy key (ShardedKV.empty hash) calls) := recordedBy_legal calls
      rw [ShardedKV.contents_empty] at hlegal
      exact hlegal
  rw [check_eq_empty_iff]
  intro g hg hkind hgok
  exact hlin.explained hstamps hg hkind hgok

end NeuralKV
