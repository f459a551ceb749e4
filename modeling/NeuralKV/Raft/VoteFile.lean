import NeuralKV.Raft.Voting

/-!
# A crash inside `PersistStateLocked`

`NeuralKV.Raft.Voting` takes `PersistStateLocked` as one step whose system calls may fail.  Here no
system call fails, and the process dies between two of them: the file is truncated by the `open`,
filled by one or more `write` calls and confirmed by `fsync`.

* `VoteFile` — `state.bin` over any number of calls, crashes and restarts.
* `call_complete` — a call that returns leaves what `writeStateFile` says.
* `persist_atomic_iff` — **`LoadPersistedState` finds the pair of the last call that returned, or
  the one that was being written, exactly if the crash does not leave the file cut short**.
* `cut_short_never_starts` — a file that is cut short is refused at every later start.
-/

set_option autoImplicit false

namespace NeuralKV

open Framing
open Runs (Run anyStep exists_run)

/-! ## The system calls -/

/-- The system calls of `PersistStateLocked`: a `write` takes `n` bytes or is interrupted. -/
inductive PersistCall where
  | openTruncate
  | write (n : Nat)
  | interrupted
  | fsync
  | close
  deriving DecidableEq, Repr

/-- What the call has behind it; `written` is its variable. -/
inductive PersistStage where
  | entered
  | writing (written : Nat)
  | synced
  | returned
  deriving DecidableEq, Repr

/-- A call of `PersistStateLocked` that writes `st`.  `before` is the file it found. -/
structure Persisting where
  st : PersistentState
  before : Option Bytes
  file : Option Bytes
  stage : PersistStage := .entered
  deriving DecidableEq, Repr

namespace Persisting

/-- The next system call; `none` when it is not this one's turn. -/
def step (p : Persisting) (call : PersistCall) : Option Persisting :=
  match p.stage, call with
  | .entered, .openTruncate => some { p with file := some [], stage := .writing 0 }
  | .writing written, .write n =>
    -- `write(fd, buf + written, sizeof(buf) - written)`
    if written < 12 ∧ n ≤ 12 - written then
      some
        { p with
          file := p.file.map (· ++ ((encodeState p.st).drop written).take n)
          stage := .writing (written + n) }
    else none
  | .writing written, .interrupted => if written < 12 then some p else none
  | .writing written, .fsync => if written < 12 then none else some { p with stage := .synced }
  | .synced, .close => some { p with stage := .returned }
  | _, _ => none

end Persisting

/-- What a crash before the `fsync` leaves on the disk: the file from before the `open`, or the
first `kept` of the bytes written since. -/
inductive Leftover where
  | before
  | first (kept : Nat)
  deriving DecidableEq, Repr

/-- `state.bin` after a crash. -/
def Persisting.crash (p : Persisting) (left : Leftover) : Option Bytes :=
  match p.stage, left with
  | .writing _, .before => p.before
  | .writing _, .first kept => p.file.map (·.take kept)
  | _, _ => p.file

/-- `state.bin` and the process that writes it.  `last` is the pair of the last call that returned,
or the one the process was started with. -/
structure VoteFile where
  last : PersistentState := {}
  file : Option Bytes := none
  call : Option Persisting := none
  deriving DecidableEq, Repr

instance (st : PersistentState) : Decidable st.Fits := by
  unfold PersistentState.Fits
  infer_instance

inductive FileAction where
  | persist (st : PersistentState)
  | system (call : PersistCall)
  | crash (left : Leftover)
  deriving DecidableEq, Repr

namespace VoteFile

/-- The file that a crash leaves. -/
def crashed (s : VoteFile) (left : Leftover) : Option Bytes :=
  match s.call with
  | none => s.file
  | some p => p.crash left

/-- One call at a time, under `mutex_`.  After a crash the node is started again: `none` when
`LoadPersistedState` does not return `Ok`. -/
def step (path : String) (s : VoteFile) : FileAction → Option VoteFile
  | .persist st =>
    if s.call = none ∧ st.Fits then
      some { s with call := some { st := st, before := s.file, file := s.file } }
    else none
  | .system call =>
    match s.call with
    | none => none
    | some p =>
      match p.step call with
      | none => none
      | some p =>
        if p.stage = .returned then some { last := p.st, file := p.file }
        else some { s with call := some p }
  | .crash left =>
    match readStateFile path (s.crashed left) with
    | .error _ => none
    | .ok st => some { last := st, file := s.crashed left }

/-- `LoadPersistedState` finds the pair of the last call that returned or the one being written. -/
def Recovers (path : String) (s : VoteFile) (left : Leftover) : Prop :=
  readStateFile path (s.crashed left) = .ok s.last ∨
    ∃ p, s.call = some p ∧ readStateFile path (s.crashed left) = .ok p.st

/-- The `open` has truncated the file, and not all of the 12 bytes are there. -/
def CutShort (s : VoteFile) (left : Leftover) : Prop :=
  ∃ p written kept, s.call = some p ∧ p.stage = .writing written ∧ left = .first kept ∧
    min kept written < 12

end VoteFile

/-! ## The file during a call -/

/-- What the file holds at each stage. -/
def Persisting.Sound (p : Persisting) : Prop :=
  p.st.Fits ∧
    match p.stage with
    | .entered => p.file = p.before
    | .writing written => written ≤ 12 ∧ p.file = some ((encodeState p.st).take written)
    | .synced => p.file = some (encodeState p.st)
    | .returned => p.file = some (encodeState p.st)

/-- **A system call keeps the file in step** with the variable `written`. -/
theorem Persisting.Sound.step {p p' : Persisting} (h : p.Sound) {call : PersistCall}
    (hs : p.step call = some p') :
    p'.Sound ∧ p'.st = p.st ∧ p'.before = p.before := by
  obtain ⟨st, before, file, stage⟩ := p
  obtain ⟨hfits, hfile⟩ := h
  unfold Persisting.step at hs
  cases stage with
  | entered =>
    cases call <;> cases hs
    exact ⟨⟨hfits, Nat.zero_le _, rfl⟩, rfl, rfl⟩
  | writing written =>
    obtain ⟨hle, hfile⟩ : written ≤ 12 ∧ file = some ((encodeState st).take written) := hfile
    subst hfile
    cases call with
    | write n =>
      dsimp only at hs
      split at hs
      · cases hs
        refine ⟨⟨hfits, by omega, ?_⟩, rfl, rfl⟩
        show some ((encodeState st).take written ++ ((encodeState st).drop written).take n) = _
        rw [← List.take_add]
      · cases hs
    | interrupted =>
      dsimp only at hs
      split at hs
      · cases hs
        exact ⟨⟨hfits, hle, rfl⟩, rfl, rfl⟩
      · cases hs
    | fsync =>
      dsimp only at hs
      split at hs
      · cases hs
      · cases hs
        refine ⟨⟨hfits, ?_⟩, rfl, rfl⟩
        show some ((encodeState st).take written) = some (encodeState st)
        rw [List.take_of_length_le (by rw [encodeState_length]; omega)]
    | openTruncate => cases hs
    | close => cases hs
  | synced =>
    cases call <;> cases hs
    exact ⟨⟨hfits, hfile⟩, rfl, rfl⟩
  | returned => cases call <;> cases hs

/-- A file that is read as `st`. -/
def Holds (file : Option Bytes) (st : PersistentState) : Prop :=
  (file = none ∧ st = {}) ∨ (file = some (encodeState st) ∧ st.Fits)

theorem Holds.read {file : Option Bytes} {st : PersistentState} (h : Holds file st)
    (path : String) : readStateFile path file = .ok st := by
  rcases h with ⟨rfl, rfl⟩ | ⟨rfl, hfits⟩
  · rfl
  · exact readStateFile_encodeState path hfits

/-- The file of a process that is not inside a call, and the file each call found, hold the last
pair. -/
structure VoteFile.Sound (s : VoteFile) : Prop where
  idle : s.call = none → Holds s.file s.last
  busy : ∀ p, s.call = some p → p.Sound ∧ Holds p.before s.last ∧ p.stage ≠ .returned

section Crash

variable {s s' : VoteFile} {path : String} {left : Leftover}

/-- **What a crash leaves**: a file that holds one of the two pairs, or one that is cut short. -/
theorem VoteFile.Sound.crashed (S : s.Sound) (left : Leftover) :
    (¬ s.CutShort left ∧ (Holds (s.crashed left) s.last ∨
        ∃ p, s.call = some p ∧ Holds (s.crashed left) p.st)) ∨
      (s.CutShort left ∧ ∃ bytes, s.crashed left = some bytes ∧ bytes.length < 12) := by
  unfold CutShort VoteFile.crashed
  cases hcall : s.call with
  | none =>
    refine Or.inl ⟨?_, Or.inl (S.idle hcall)⟩
    rintro ⟨_, _, _, hsome, _⟩
    cases hsome
  | some p =>
    obtain ⟨⟨hfits, hfile⟩, hbefore, hret⟩ := S.busy p hcall
    obtain ⟨st, before, file, stage⟩ := p
    cases stage with
    | entered =>
      refine Or.inl ⟨?_, Or.inl ?_⟩
      · rintro ⟨_, _, _, ⟨⟩, hstage, _⟩
        cases hstage
      · show Holds file s.last
        rw [show file = before from hfile]
        exact hbefore
    | writing written =>
      obtain ⟨hle, hfile⟩ : written ≤ 12 ∧ file = some ((encodeState st).take written) := hfile
      subst hfile
      cases left with
      | before =>
        refine Or.inl ⟨?_, Or.inl hbefore⟩
        rintro ⟨_, _, _, _, _, hleft, _⟩
        cases hleft
      | first kept =>
        have hcrash : (Option.map (·.take kept) (some ((encodeState st).take written))) =
            some ((encodeState st).take (min kept written)) := by
          rw [Option.map_some, List.take_take]
        by_cases hcut : min kept written < 12
        · refine Or.inr ⟨⟨_, written, kept, rfl, rfl, rfl, hcut⟩, _, hcrash, ?_⟩
          rw [List.length_take]
          omega
        · refine Or.inl ⟨?_, Or.inr ⟨_, rfl, Or.inr ⟨?_, hfits⟩⟩⟩
          · rintro ⟨_, _, _, ⟨⟩, ⟨⟩, ⟨⟩, hlt⟩
            exact hcut hlt
          · refine hcrash.trans ?_
            rw [List.take_of_length_le (by rw [encodeState_length]; omega)]
    | synced =>
      refine Or.inl ⟨?_, Or.inr ⟨_, rfl, Or.inr ⟨hfile, hfits⟩⟩⟩
      rintro ⟨_, _, _, ⟨⟩, hstage, _⟩
      cases hstage
    | returned => exact absurd rfl hret

theorem VoteFile.Sound.persist (S : s.Sound) {st : PersistentState}
    (hs : s.step path (.persist st) = some s') : s'.Sound := by
  unfold VoteFile.step at hs
  dsimp only at hs
  split at hs
  · rename_i hidle
    cases hs
    refine ⟨fun hnone => (by cases hnone), ?_⟩
    rintro _ ⟨⟩
    exact ⟨⟨hidle.2, rfl⟩, S.idle hidle.1, fun h => by cases h⟩
  · cases hs

theorem VoteFile.Sound.system (S : s.Sound) {call : PersistCall}
    (hs : s.step path (.system call) = some s') : s'.Sound := by
  unfold VoteFile.step at hs
  dsimp only at hs
  cases hcall : s.call with
  | none =>
    rw [hcall] at hs
    cases hs
  | some p =>
    rw [hcall] at hs
    dsimp only at hs
    cases hp : p.step call with
    | none =>
      rw [hp] at hs
      cases hs
    | some p' =>
      rw [hp] at hs
      dsimp only at hs
      obtain ⟨hsound, hbefore, _⟩ := S.busy p hcall
      obtain ⟨hsound', hst, hbefore'⟩ := hsound.step hp
      split at hs
      · rename_i hret
        cases hs
        refine ⟨fun _ => Or.inr ⟨?_, hsound'.1⟩, fun _ hnone => by cases hnone⟩
        obtain ⟨_, hfile⟩ := hsound'
        rw [hret] at hfile
        exact hfile
      · rename_i hret
        cases hs
        refine ⟨fun hnone => (by cases hnone), ?_⟩
        rintro _ ⟨⟩
        exact ⟨hsound', by rw [hbefore']; exact hbefore, hret⟩

/-- After a crash the node starts with the pair that the file holds. -/
theorem VoteFile.Sound.restarted (S : s.Sound) {left : Leftover}
    (hs : s.step path (.crash left) = some s') : s'.Sound := by
  unfold VoteFile.step at hs
  dsimp only at hs
  cases hread : readStateFile path (s.crashed left) with
  | error e =>
    rw [hread] at hs
    cases hs
  | ok st =>
    rw [hread] at hs
    cases hs
    refine ⟨fun _ => ?_, fun _ hnone => by cases hnone⟩
    rcases S.crashed left with ⟨_, hheld | ⟨p, _, hheld⟩⟩ | ⟨_, bytes, hbytes, hlt⟩
    · rw [hheld.read path] at hread
      cases hread
      exact hheld
    · rw [hheld.read path] at hread
      cases hread
      exact hheld
    · rw [hbytes] at hread
      exact absurd hread (readStateFile_short hlt st)

theorem VoteFile.Sound.step (S : s.Sound) {a : FileAction} (hs : s.step path a = some s') :
    s'.Sound := by
  cases a with
  | persist st => exact S.persist hs
  | system call => exact S.system hs
  | crash left => exact S.restarted hs

theorem run_voteFile_sound (hr : Run (VoteFile.step path) {} anyStep s) : s.Sound := by
  induction hr with
  | init => exact ⟨fun _ => Or.inl ⟨rfl, rfl⟩, fun _ hnone => by cases hnone⟩
  | step _ _ hs ih => exact ih.step hs

end Crash

/-- **A call that returns has done what `writeStateFile` says.** -/
theorem call_complete {p p' : Persisting} (h : p.Sound)
    (hr : Run Persisting.step p anyStep p') (hret : p'.stage = .returned) :
    p'.file = writeStateFile p.before p.st .complete := by
  have hsound : p'.Sound ∧ p'.st = p.st := by
    clear hret
    induction hr with
    | init => exact ⟨h, rfl⟩
    | step _ _ hs ih =>
      obtain ⟨hsound, hst, _⟩ := ih.1.step hs
      exact ⟨hsound, hst.trans ih.2⟩
  obtain ⟨⟨_, hfile⟩, hst⟩ := hsound
  rw [hret] at hfile
  rw [show p'.file = some (encodeState p'.st) from hfile, hst]
  rfl

/-- **A crash in or between calls, in any run**: the load returns `Ok` with the old or the new pair
exactly if the crash does not leave the file cut short. -/
theorem persist_atomic_iff {path : String} {s : VoteFile}
    (hr : Run (VoteFile.step path) {} anyStep s) (left : Leftover) :
    s.Recovers path left ↔ ¬ s.CutShort left := by
  have S := run_voteFile_sound hr
  rcases S.crashed left with ⟨hwhole, hheld⟩ | ⟨hcut, bytes, hbytes, hlt⟩
  · refine iff_of_true ?_ hwhole
    rcases hheld with hheld | ⟨p, hp, hheld⟩
    · exact Or.inl (hheld.read path)
    · exact Or.inr ⟨p, hp, hheld.read path⟩
  · refine iff_of_false ?_ (fun hno => hno hcut)
    rintro (hload | ⟨p, _, hload⟩)
    · rw [hbytes] at hload
      exact readStateFile_short hlt _ hload
    · rw [hbytes] at hload
      exact readStateFile_short hlt _ hload

/-- A crash after the last byte of the second pair, before its `fsync`. -/
theorem persist_atomic_unsynced :
    ∃ s : VoteFile, Run (VoteFile.step "data/raft/state.bin") {} anyStep s ∧
      s.last = ⟨1, 1⟩ ∧ s.Recovers "data/raft/state.bin" (.first 12) := by
  obtain ⟨s, hr, hs⟩ : ∃ s : VoteFile, Run (VoteFile.step "data/raft/state.bin") {} anyStep s ∧
      decide (s = ⟨⟨1, 1⟩, some (encodeState ⟨1, 1⟩), some
        ⟨⟨2, 0⟩, some (encodeState ⟨1, 1⟩), some (encodeState ⟨2, 0⟩), .writing 12⟩⟩) = true :=
    exists_run
      [.persist ⟨1, 1⟩, .system .openTruncate, .system (.write 5), .system .interrupted,
        .system (.write 7), .system .fsync, .system .close, .persist ⟨2, 0⟩,
        .system .openTruncate, .system (.write 12)]
      (by decide +kernel)
  have heq := of_decide_eq_true hs
  refine ⟨s, hr, by rw [heq], (persist_atomic_iff hr (.first 12)).mpr ?_⟩
  rintro ⟨p, written, kept, hp, hstage, hleft, hlt⟩
  rw [heq] at hp
  cases hp
  cases hstage
  cases hleft
  exact absurd hlt (by decide)

/-- A file that is cut short is refused by every start of a node. -/
theorem cut_short_never_starts {node : PersistedNode} {bytes : Bytes}
    (hfile : node.stateFile = some bytes) (hlt : bytes.length < 12) : node.restart = none := by
  unfold PersistedNode.restart
  cases hread : readStateFile node.statePath node.stateFile with
  | error e => rfl
  | ok st =>
    rw [hfile] at hread
    exact absurd hread (readStateFile_short hlt st)

/-- The process dies right after the truncating `open` of its second call: the node does not start
again. -/
theorem truncated_vote_file_refused :
    ∃ s : VoteFile, Run (VoteFile.step "data/raft/state.bin") {} anyStep s ∧
      s.last = ⟨1, 1⟩ ∧ s.call.map (·.st) = some ⟨2, 1⟩ ∧
      readStateFile "data/raft/state.bin" (s.crashed (.first 0)) =
        .error ⟨.kIOError, "raft state file truncated: data/raft/state.bin"⟩ ∧
      ∀ node : PersistedNode, node.stateFile = s.crashed (.first 0) → node.restart = none := by
  obtain ⟨s, hr, hs⟩ : ∃ s : VoteFile, Run (VoteFile.step "data/raft/state.bin") {} anyStep s ∧
      decide (s = ⟨⟨1, 1⟩, some (encodeState ⟨1, 1⟩), some
        ⟨⟨2, 1⟩, some (encodeState ⟨1, 1⟩), some [], .writing 0⟩⟩) = true :=
    exists_run
      [.persist ⟨1, 1⟩, .system .openTruncate, .system (.write 12), .system .fsync,
        .system .close, .persist ⟨2, 1⟩, .system .openTruncate]
      (by decide +kernel)
  have heq := of_decide_eq_true hs
  have hfile : s.crashed (.first 0) = some [] := by
    rw [heq]
    rfl
  refine ⟨s, hr, by rw [heq], by rw [heq]; rfl, by rw [hfile]; rfl, fun node hnode => ?_⟩
  exact cut_short_never_starts (hnode.trans hfile) (by decide)

end NeuralKV
