import NeuralKV.Persistence.Durability

/-!
# The write path of one process

One incarnation of the process on a data directory, with any number of `Set` and `Delete` calls
interleaved and any `fsync` failing.

* `WritePath` — `last_applied_index_ <= synced_index_ <= last_index_`, the store is the replay of
  the first `last_applied_index_` records, and the records applied by calls are exactly those, in
  order.  `write_path_invariant` is the run lemma.
* `Unwedged` — every index behind `last_applied_index_` belongs to a call in progress.
  `unwedged_run` proves it for runs in which every flush succeeds.
* `Orphaned` — an index that no call in progress has.  A failed flush orphans the index of the
  call that led it (`failed_flush_orphans`), and while the process lives nothing behind an
  orphaned index is applied (`orphaned_run`).
-/

set_option autoImplicit false

namespace NeuralKV

open Framing
open Runs (exists_of_any exists_run putThread mem_putThread mem_putThread_self mem_putThread_of_mem
  pairwise_getElem? pairwise_putThread)

/-! ## What `Open` finds -/

/-- `Open` succeeds only on a file that is read to its end. -/
theorem open_spec {hash : Bytes → Nat} {file : Bytes} {storage : DurableStorage}
    (h : DurableStorage.Open hash file = .ok storage) :
    storage =
      { wal :=
          { lastIndex := lastIndexOf (scanWal file).frames
            syncedIndex := lastIndexOf (scanWal file).frames }
        kv := replay (ShardedKV.empty hash) (scanWal file).frames
        lastAppliedIndex := lastIndexOf (scanWal file).frames } := by
  simp only [DurableStorage.Open, recoverFromWal, WalWriter.openOrCreate] at h
  cases herr : (scanWal file).error with
  | none =>
    simp only [herr, Option.getD_none] at h
    cases h
    rfl
  | some status =>
    simp only [herr, Option.getD_some, scanWal_error herr] at h
    cases h

/-! ## Counters, store and records -/

/-- The records of the log as the process has it: those `Open` found in `file`, then those
appended since. -/
def logged (file : Bytes) (s : Machine) : List WalRecord := (scanWal file).frames ++ s.written

/-- The write path between any two steps of process `p`, started on `file`. -/
structure WritePath (hash : Bytes → Nat) (file : Bytes) (s : Machine) (p : Process) : Prop where
  bytes : s.file = file ++ encodeAll encodeWalRecord s.written
  numbered : Numbered (logged file s)
  last : p.storage.wal.lastIndex = (logged file s).length
  applied_le : p.storage.lastAppliedIndex ≤ p.storage.wal.syncedIndex
  synced_le : p.storage.wal.syncedIndex ≤ p.storage.wal.lastIndex
  contents : p.storage.kv =
    replay (ShardedKV.empty hash) ((logged file s).take p.storage.lastAppliedIndex)
  order : (scanWal file).frames ++ s.acked = (logged file s).take p.storage.lastAppliedIndex
  returned : ∀ r ∈ s.acked, Placed (logged file s) r ∧ r.index ≤ p.storage.lastAppliedIndex

/-- The process is not killed and no `write` fails. -/
def oneIncarnation : Machine → StorageAction → Prop
  | _, .append _ (.failed _ _) => False
  | _, .crash _ => False
  | _, _ => True

instance (s : Machine) : (a : StorageAction) → Decidable (oneIncarnation s a)
  | .append _ (.failed _ _) | .crash _ => instDecidableFalse
  | .append _ .complete | .openStorage | .set _ _ | .delete _ | .sync _ | .flush _ _ | .apply _ =>
    instDecidableTrue

/-- Two calls that have written their records hold different indices. -/
def Apart (c d : Call) : Prop :=
  c.stage ≠ .append → d.stage ≠ .append → c.record.index ≠ d.record.index

theorem Apart.symm (c d : Call) (h : Apart c d) : Apart d c := fun hd hc => (h hc hd).symm

/-- A call in progress: from `sync` on its record is in the log and not yet applied. -/
structure Pending (rs : List WalRecord) (applied synced : Nat) (c : Call) : Prop where
  placed : c.stage ≠ .append → Placed rs c.record
  ahead : c.stage ≠ .append → applied < c.record.index
  applying : c.stage = .apply → c.record.index ≤ synced

/-- The invariant of `write_path_invariant`. -/
structure PathOk (hash : Bytes → Nat) (file : Bytes) (s : Machine) (p : Process) : Prop extends
    WritePath hash file s p where
  opened : p.storage.wal.openStatus.ok = true
  calls : ∀ c ∈ p.calls,
    Pending (logged file s) p.storage.lastAppliedIndex p.storage.wal.syncedIndex c
  apart : p.calls.Pairwise Apart

section Preservation

variable {hash : Bytes → Nat} {file : Bytes} {s s' : Machine} {p : Process} {k : Nat}

theorem Placed.index_pos {rs : List WalRecord} {r : WalRecord} (h : Placed rs r)
    (hn : Numbered rs) : 0 < r.index := by
  have := hn _ r h
  omega

/-- A call that changes its stage stays apart from the others. -/
theorem apart_putThread {calls : List Call} {c : Call} {next : Option Call}
    (h : calls.Pairwise Apart) (hc : calls[k]? = some c) (hstage : c.stage ≠ .append)
    (hnext : ∀ d, next = some d → d.record = c.record) :
    (putThread calls k next).Pairwise Apart := by
  refine pairwise_putThread Apart.symm h ?_
  intro d hd i a hik ha _ ha'
  rw [hnext d hd]
  exact pairwise_getElem? Apart.symm h (Ne.symm hik) hc ha hstage ha'

theorem PathOk.opened_ok (hfile : Numbered (scanWal file).frames) {storage : DurableStorage}
    (h : DurableStorage.Open hash file = .ok storage) :
    PathOk hash file { file := file, process := some { storage } } { storage } := by
  have hlast : lastIndexOf (scanWal file).frames = (scanWal file).frames.length := hfile.getLast
  have hlog : ∀ process, logged file { file := file, process := process } =
      (scanWal file).frames := fun _ => List.append_nil _
  rw [open_spec h, hlast]
  refine
    { bytes := (List.append_nil _).symm
      numbered := ?_
      last := ?_
      applied_le := Nat.le_refl _
      synced_le := Nat.le_refl _
      contents := ?_
      order := ?_
      returned := fun r hr => by cases hr
      opened := rfl
      calls := fun c hc => by cases hc
      apart := List.Pairwise.nil }
  · rw [hlog]; exact hfile
  · rw [hlog]
  · simp only [hlog, List.take_length]
  · simp only [hlog, List.take_length, List.append_nil]

theorem PathOk.called (P : PathOk hash file s p) (record : WalRecord) :
    PathOk hash file { s with process := some { p with calls := p.calls ++ [{ record }] } }
      { p with calls := p.calls ++ [{ record }] } := by
  refine { P with calls := ?_, apart := ?_ }
  · intro c hc
    rcases List.mem_append.mp hc with h | h
    · exact P.calls c h
    · obtain rfl := List.mem_singleton.mp h
      exact ⟨fun h => absurd rfl h, fun h => absurd rfl h, fun h => by cases h⟩
  · refine List.pairwise_append.mpr ⟨P.apart, List.pairwise_singleton _ _, ?_⟩
    intro c _ d hd _ hstage
    obtain rfl := List.mem_singleton.mp hd
    exact absurd rfl hstage

/-- **A scope of `Sync` keeps the invariant**: the log does not change, and `synced_index_` grows
at most up to `last_index_`. -/
theorem PathOk.put (P : PathOk hash file s p) {wal : WalWriter} {c : Call} {next : Option Call}
    {durable : Nat} (hc : p.calls[k]? = some c) (hstage : c.stage ≠ .append)
    (hopen : wal.openStatus = p.storage.wal.openStatus)
    (hlast : wal.lastIndex = p.storage.wal.lastIndex)
    (hsynced : p.storage.wal.syncedIndex ≤ wal.syncedIndex)
    (hsynced' : wal.syncedIndex ≤ p.storage.wal.lastIndex)
    (hnext : ∀ d, next = some d → d.record = c.record ∧
      (d.stage = .apply → c.record.index ≤ wal.syncedIndex)) :
    PathOk hash file { s with durable := durable, process := some (p.put wal k next) }
      (p.put wal k next) := by
  refine
    { P with
      last := hlast.trans P.last
      applied_le := Nat.le_trans P.applied_le hsynced
      synced_le := hlast ▸ hsynced'
      opened := ?_
      calls := ?_
      apart := apart_putThread P.apart hc hstage fun d hd => (hnext d hd).1 }
  · show wal.openStatus.ok = true
    rw [hopen]
    exact P.opened
  · have C := P.calls c (List.mem_of_getElem? hc)
    intro d hd
    show Pending _ p.storage.lastAppliedIndex wal.syncedIndex d
    rcases Process.mem_put hd with h | h
    · obtain ⟨hrec, happly⟩ := hnext d h
      refine ⟨fun _ => ?_, fun _ => ?_, fun hd' => ?_⟩
      · rw [hrec]; exact C.placed hstage
      · rw [hrec]; exact C.ahead hstage
      · rw [hrec]; exact happly hd'
    · have D := P.calls d h
      exact ⟨D.placed, D.ahead, fun h => Nat.le_trans (D.applying h) hsynced⟩

/-- **`Append` keeps the invariant**: the new record is the last one of the log. -/
theorem PathOk.appended (P : PathOk hash file s p) (k : Nat) (record : WalRecord) :
    PathOk hash file
      { s with
        file := s.file ++ encodeWalRecord { record with index := p.storage.wal.lastIndex + 1 }
        process := some (p.put { p.storage.wal with lastIndex := p.storage.wal.lastIndex + 1 } k
          (some ⟨{ record with index := p.storage.wal.lastIndex + 1 }, .sync⟩))
        written := s.written ++ [{ record with index := p.storage.wal.lastIndex + 1 }] }
      (p.put { p.storage.wal with lastIndex := p.storage.wal.lastIndex + 1 } k
        (some ⟨{ record with index := p.storage.wal.lastIndex + 1 }, .sync⟩)) := by
  have hlast := P.last
  have hle := Nat.le_trans P.applied_le P.synced_le
  have hlog : ∀ m : Machine,
      m.written = s.written ++ [{ record with index := p.storage.wal.lastIndex + 1 }] →
      logged file m = logged file s ++ [{ record with index := p.storage.wal.lastIndex + 1 }] := by
    intro m hm
    rw [logged, hm, ← List.append_assoc]
    rfl
  have htake : ∀ x : WalRecord, (logged file s ++ [x]).take p.storage.lastAppliedIndex =
      (logged file s).take p.storage.lastAppliedIndex :=
    fun x => List.take_append_of_le_length (by omega)
  refine
    { bytes := ?_
      numbered := ?_
      last := ?_
      applied_le := P.applied_le
      synced_le := Nat.le_succ_of_le P.synced_le
      contents := ?_
      order := ?_
      returned := ?_
      opened := P.opened
      calls := ?_
      apart := ?_ }
  · show s.file ++ _ = file ++ _
    rw [encodeAll_concat, ← List.append_assoc, P.bytes]
  · rw [hlog _ rfl]
    exact P.numbered.concat (by rw [hlast])
  · rw [hlog _ rfl, List.length_append, ← hlast]
    rfl
  · rw [hlog _ rfl]
    show p.storage.kv = replay _ (List.take p.storage.lastAppliedIndex _)
    rw [htake]
    exact P.contents
  · rw [hlog _ rfl]
    show _ = List.take p.storage.lastAppliedIndex _
    rw [htake]
    exact P.order
  · intro r hr
    rw [hlog _ rfl]
    obtain ⟨h₁, h₂⟩ := P.returned r hr
    exact ⟨h₁.concat _, h₂⟩
  · intro c hc'
    rw [hlog _ rfl]
    show Pending _ p.storage.lastAppliedIndex p.storage.wal.syncedIndex c
    rcases Process.mem_put hc' with h | h
    · cases h
      refine ⟨fun _ => ?_, fun _ => Nat.lt_succ_of_le hle, fun h => by cases h⟩
      simp [Placed, hlast]
    · have C := P.calls c h
      exact ⟨fun h => (C.placed h).concat _, C.ahead, C.applying⟩
  · -- every other index is one of the log as it was
    show (putThread p.calls k (some _)).Pairwise Apart
    refine pairwise_putThread Apart.symm P.apart ?_
    intro d hd i a _ ha _ hstage
    cases hd
    have hidx := ((P.calls a (List.mem_of_getElem? ha)).placed hstage).index_le P.numbered
    show p.storage.wal.lastIndex + 1 ≠ a.record.index
    omega

/-- **The apply step keeps the invariant**: behind the barrier the record is the next one. -/
theorem PathOk.applied (P : PathOk hash file s p) {record : WalRecord}
    (hc : p.calls[k]? = some ⟨record, .apply⟩)
    (hbarrier : p.storage.lastAppliedIndex = record.index - 1) {storage : DurableStorage}
    (hstorage : storage =
      { p.storage with kv := applyRecord p.storage.kv record, lastAppliedIndex := record.index }) :
    PathOk hash file
      { s with
        process := some { storage, calls := putThread p.calls k none }
        acked := s.acked ++ [record] }
      { storage, calls := putThread p.calls k none } := by
  subst hstorage
  have C := P.calls _ (List.mem_of_getElem? hc)
  have hplaced : Placed (logged file s) record := C.placed (by simp)
  have hpos := hplaced.index_pos P.numbered
  have hsucc : record.index = p.storage.lastAppliedIndex + 1 := by omega
  have htake : (logged file s).take record.index =
      (logged file s).take p.storage.lastAppliedIndex ++ [record] := by
    have hget : (logged file s)[p.storage.lastAppliedIndex]? = some record := by
      rw [hbarrier]; exact hplaced
    rw [hsucc, List.take_add_one, hget]
    rfl
  refine
    { P with
      applied_le := C.applying rfl
      contents := ?_
      order := ?_
      returned := ?_
      calls := ?_
      apart := P.apart.sublist (List.eraseIdx_sublist _ _) }
  · show applyRecord p.storage.kv record = replay _ ((logged file s).take record.index)
    rw [htake, replay_append, ← P.contents]
    rfl
  · show _ ++ (s.acked ++ [record]) = (logged file s).take record.index
    rw [htake, ← P.order, List.append_assoc]
  · intro r hr
    show Placed (logged file s) r ∧ r.index ≤ record.index
    rcases List.mem_append.mp hr with h | h
    · obtain ⟨h₁, h₂⟩ := P.returned r h
      exact ⟨h₁, by omega⟩
    · obtain rfl := List.mem_singleton.mp h
      exact ⟨hplaced, Nat.le_refl _⟩
  · intro d hd
    obtain ⟨i, hik, hi⟩ := List.mem_eraseIdx_iff_getElem?.mp hd
    have D := P.calls d (List.mem_of_getElem? hi)
    refine ⟨D.placed, fun hstage => ?_, D.applying⟩
    -- a call that is still pending has another index, and that index is not yet applied
    have hahead := D.ahead hstage
    have hne := pairwise_getElem? Apart.symm P.apart hik hi hc hstage (by simp)
    show record.index < d.record.index
    simp only at hne
    omega

/-- **Every move of a process that stays up keeps the invariant.** -/
theorem PathOk.move (P : PathOk hash file s p) (hp : s.process = some p) {a : StorageAction}
    (ha : oneIncarnation s a) (mv : StorageMove hash s a s') :
    ∃ p', s'.process = some p' ∧ PathOk hash file s' p' := by
  have hproc : ∀ {q : Process}, s.process = some q → q = p := by
    intro q hq
    rw [hp] at hq
    exact (Option.some.inj hq).symm
  cases mv with
  | idle => exact ⟨p, hp, P⟩
  | opened hp' _ => rw [hp] at hp'; cases hp'
  | crash _ => exact absurd ha id
  | called hp' _ =>
    obtain rfl := hproc hp'
    exact ⟨_, rfl, P.called _⟩
  | appended hp' _ _ _ =>
    obtain rfl := hproc hp'
    exact ⟨_, rfl, P.appended _ _⟩
  | appendFailed _ _ _ _ _ => exact absurd ha id
  | refused hp' _ hopen =>
    obtain rfl := hproc hp'
    rw [P.opened] at hopen
    cases hopen
  | covered hp' hc hstage hle =>
    obtain rfl := hproc hp'
    refine ⟨_, rfl, P.put hc ?_ rfl rfl (Nat.le_refl _) P.synced_le ?_⟩
    · rcases hstage with h | h <;> rw [h] <;> simp
    · intro d hd
      cases hd
      exact ⟨rfl, fun _ => hle⟩
  | waits hp' hc _ _ =>
    obtain rfl := hproc hp'
    refine ⟨_, rfl, P.put hc (by simp) rfl rfl (Nat.le_refl _) P.synced_le ?_⟩
    intro d hd
    cases hd
    exact ⟨rfl, fun h => by cases h⟩
  | leads hp' hc hstage _ _ =>
    obtain rfl := hproc hp'
    refine ⟨_, rfl, P.put hc ?_ rfl rfl (Nat.le_refl _) P.synced_le ?_⟩
    · rcases hstage with h | h <;> rw [h] <;> simp
    · intro d hd
      cases hd
      exact ⟨rfl, fun h => by cases h⟩
  | flushed hp' hc =>
    obtain rfl := hproc hp'
    have hidx := ((P.calls _ (List.mem_of_getElem? hc)).placed (by simp)).index_le P.numbered
    have hlast := P.last
    refine ⟨_, rfl, P.put hc (by simp) rfl rfl P.synced_le (Nat.le_refl _) ?_⟩
    intro d hd
    cases hd
    exact ⟨rfl, fun _ => by simp only at hidx ⊢; omega⟩
  | flushFailed hp' hc =>
    obtain rfl := hproc hp'
    refine ⟨_, rfl, P.put hc (by simp) rfl rfl (Nat.le_refl _) P.synced_le ?_⟩
    intro d hd
    cases hd
  | applied hp' hc hbarrier =>
    obtain rfl := hproc hp'
    exact ⟨_, rfl, P.applied hc hbarrier rfl⟩

/-- Before `Open` has succeeded nothing has happened; after that the invariant holds. -/
theorem run_pathOk (hfile : Numbered (scanWal file).frames)
    (hr : Runs.Run (Machine.step hash) { file := file } oneIncarnation s) :
    s = { file := file } ∨ ∃ p, s.process = some p ∧ PathOk hash file s p := by
  induction hr with
  | init => exact Or.inl rfl
  | step _ ha hs ih =>
    have mv := storage_move hs
    rcases ih with rfl | ⟨p, hp, P⟩
    · cases mv with
      | idle => exact Or.inl rfl
      | opened _ hopen => exact Or.inr ⟨_, rfl, PathOk.opened_ok hfile hopen⟩
      | crash _ => exact absurd ha id
      | _ hp => cases hp
    · exact Or.inr (P.move hp ha mv)

end Preservation

/-- **The counters stay in order, and the store is the replay of the records up to
`last_applied_index_`**, whichever calls run and whichever flushes fail. -/
theorem write_path_invariant {hash : Bytes → Nat} {file : Bytes} {s : Machine} {p : Process}
    (hfile : Numbered (scanWal file).frames)
    (hr : Runs.Run (Machine.step hash) { file := file } oneIncarnation s)
    (hp : s.process = some p) : WritePath hash file s p := by
  rcases run_pathOk hfile hr with rfl | ⟨q, hq, P⟩
  · cases hp
  · rw [hp] at hq
    cases hq
    exact P.toWritePath

/-- A file with one record; a batch of two calls whose leader covers a waiter, and a third call
whose flush fails. -/
theorem write_path_invariant_batch :
    ∃ s p, Runs.Run (Machine.step fun _ => 0) { file := encodeWalRecord ⟨0, 1, .kSet, [97], [49]⟩ }
        oneIncarnation s ∧ s.process = some p ∧
      (p.storage.lastAppliedIndex = 3 ∧ p.storage.wal.lastIndex = 4 ∧ p.calls = []) ∧
      WritePath (fun _ => 0) (encodeWalRecord ⟨0, 1, .kSet, [97], [49]⟩) s p := by
  have hscan : scanWal (encodeWalRecord ⟨0, 1, .kSet, [97], [49]⟩) =
      ⟨[⟨0, 1, .kSet, [97], [49]⟩], [], none⟩ := by
    have henc : ∀ r ∈ [(⟨0, 1, .kSet, [97], [49]⟩ : WalRecord)], r.Encodable := by
      intro r hr
      obtain rfl := List.mem_singleton.mp hr
      exact ⟨by decide, by decide, by decide⟩
    simpa using scanWal_frames henc (Or.inl rfl)
  have hfile : Numbered (scanWal (encodeWalRecord ⟨0, 1, .kSet, [97], [49]⟩)).frames := by
    rw [hscan]
    exact Numbered.nil.concat rfl
  obtain ⟨s, hr, hs⟩ : ∃ s, Runs.Run (Machine.step fun _ => 0)
      { file := encodeWalRecord ⟨0, 1, .kSet, [97], [49]⟩ } oneIncarnation s ∧
      s.process.any (fun p => decide (p.storage.lastAppliedIndex = 3 ∧
        p.storage.wal.lastIndex = 4 ∧ p.calls = [])) = true :=
    exists_run
      [.openStorage, .set [98] [50], .append 0 .complete, .sync 0, .delete [97],
        .append 1 .complete, .sync 1, .flush 0 none, .sync 1, .apply 0, .apply 0,
        .set [99] [51], .append 0 .complete, .sync 0, .flush 0 (some "EIO")] (by decide +kernel)
  obtain ⟨p, hp, hs⟩ := exists_of_any hs
  exact ⟨s, p, hr, hp, of_decide_eq_true hs, write_path_invariant hfile hr hp⟩

/-! ## Indices without a call -/

/-- Every index behind the last applied one belongs to a call in progress. -/
structure Unwedged (p : Process) : Prop where
  owned : ∀ i, p.storage.lastAppliedIndex < i → i ≤ p.storage.wal.lastIndex →
    ∃ c ∈ p.calls, c.stage ≠ .append ∧ c.record.index = i
  drained : p.calls = [] → p.storage.lastAppliedIndex = p.storage.wal.lastIndex

/-- No `fsync` fails. -/
def flushesSucceed : Machine → StorageAction → Prop
  | _, .flush _ (some _) => False
  | _, _ => True

instance (s : Machine) (a : StorageAction) : Decidable (flushesSucceed s a) := by
  unfold flushesSucceed
  split <;> infer_instance

/-- The invariant of `unwedged_run`. -/
structure OwnedOk (p : Process) : Prop where
  opened : p.storage.wal.openStatus.ok = true
  applied_le : p.storage.lastAppliedIndex ≤ p.storage.wal.lastIndex
  calls : ∀ c ∈ p.calls, c.stage ≠ .append →
    0 < c.record.index ∧ c.record.index ≤ p.storage.wal.lastIndex
  owned : ∀ i, p.storage.lastAppliedIndex < i → i ≤ p.storage.wal.lastIndex →
    ∃ c ∈ p.calls, c.stage ≠ .append ∧ c.record.index = i

namespace OwnedOk

variable {hash : Bytes → Nat} {s s' : Machine} {p : Process} {k : Nat}

theorem toUnwedged (O : OwnedOk p) : Unwedged p := by
  refine ⟨O.owned, fun hnil => ?_⟩
  by_contra hne
  have hle := O.applied_le
  obtain ⟨c, hc, _⟩ := O.owned p.storage.wal.lastIndex (by omega) (Nat.le_refl _)
  rw [hnil] at hc
  cases hc

theorem of_open {file : Bytes} {storage : DurableStorage}
    (h : DurableStorage.Open hash file = .ok storage) : OwnedOk { storage } := by
  rw [open_spec h]
  refine ⟨rfl, Nat.le_refl _, fun c hc => (by cases hc), ?_⟩
  intro i hlt hle
  simp only at hlt hle
  omega

theorem called (O : OwnedOk p) (record : WalRecord) :
    OwnedOk { p with calls := p.calls ++ [{ record }] } := by
  refine ⟨O.opened, O.applied_le, ?_, ?_⟩
  · intro c hc hstage
    rcases List.mem_append.mp hc with h | h
    · exact O.calls c h hstage
    · obtain rfl := List.mem_singleton.mp h
      exact absurd rfl hstage
  · intro i hlt hle
    obtain ⟨c, hc, hci⟩ := O.owned i hlt hle
    exact ⟨c, List.mem_append_left _ hc, hci⟩

/-- A call that has not written its record returns. -/
theorem dropped (O : OwnedOk p) {c : Call} (hc : p.calls[k]? = some c)
    (hstage : c.stage = .append) : OwnedOk (p.put p.storage.wal k none) := by
  refine ⟨O.opened, O.applied_le, ?_, ?_⟩
  · intro d hd
    exact O.calls d ((Process.mem_put hd).resolve_left (by simp))
  · intro i hlt hle
    obtain ⟨d, hd, hdstage, hdi⟩ := O.owned i hlt hle
    refine ⟨d, (mem_putThread_of_mem hc none hd).resolve_left ?_, hdstage, hdi⟩
    rintro rfl
    exact hdstage hstage

/-- A scope of `Sync` after which the call goes on. -/
theorem put (O : OwnedOk p) {wal : WalWriter} {c : Call} {stage : CallStage}
    (hc : p.calls[k]? = some c) (hstage : c.stage ≠ .append) (hstage' : stage ≠ .append)
    (hopen : wal.openStatus = p.storage.wal.openStatus)
    (hlast : wal.lastIndex = p.storage.wal.lastIndex) :
    OwnedOk (p.put wal k (some { c with stage := stage })) := by
  refine ⟨?_, ?_, ?_, ?_⟩
  · show wal.openStatus.ok = true
    rw [hopen]
    exact O.opened
  · show _ ≤ wal.lastIndex
    rw [hlast]
    exact O.applied_le
  · intro d hd hd'
    show _ ∧ _ ≤ wal.lastIndex
    rw [hlast]
    rcases Process.mem_put hd with h | h
    · cases h
      exact O.calls c (List.mem_of_getElem? hc) hstage
    · exact O.calls d h hd'
  · intro i hlt hle
    replace hle : i ≤ wal.lastIndex := hle
    rw [hlast] at hle
    obtain ⟨d, hd, hdstage, hdi⟩ := O.owned i hlt hle
    rcases mem_putThread_of_mem hc (some { c with stage := stage }) hd with rfl | h
    · exact ⟨_, mem_putThread_self hc _, hstage', hdi⟩
    · exact ⟨d, h, hdstage, hdi⟩

theorem appended (O : OwnedOk p) {record : WalRecord}
    (hc : p.calls[k]? = some ⟨record, .append⟩) :
    OwnedOk (p.put { p.storage.wal with lastIndex := p.storage.wal.lastIndex + 1 } k
      (some ⟨{ record with index := p.storage.wal.lastIndex + 1 }, .sync⟩)) := by
  refine ⟨O.opened, Nat.le_succ_of_le O.applied_le, ?_, ?_⟩
  · intro d hd hd'
    rcases Process.mem_put hd with h | h
    · cases h
      exact ⟨Nat.succ_pos _, Nat.le_refl _⟩
    · obtain ⟨h₁, h₂⟩ := O.calls d h hd'
      exact ⟨h₁, Nat.le_succ_of_le h₂⟩
  · intro i hlt hle
    replace hle : i ≤ p.storage.wal.lastIndex + 1 := hle
    by_cases hi : i = p.storage.wal.lastIndex + 1
    · exact ⟨_, mem_putThread_self hc _, by simp, hi.symm⟩
    · obtain ⟨d, hd, hdstage, hdi⟩ := O.owned i hlt (by omega)
      refine ⟨d, ?_, hdstage, hdi⟩
      refine (mem_putThread_of_mem hc (some _) hd).resolve_left ?_
      rintro rfl
      exact hdstage rfl

theorem applied (O : OwnedOk p) {record : WalRecord} (hc : p.calls[k]? = some ⟨record, .apply⟩)
    (hbarrier : p.storage.lastAppliedIndex = record.index - 1) (kv : ShardedKV) :
    OwnedOk
      { storage := { p.storage with kv := kv, lastAppliedIndex := record.index }
        calls := putThread p.calls k none } := by
  obtain ⟨hpos, hle⟩ := O.calls _ (List.mem_of_getElem? hc) (by simp)
  refine ⟨O.opened, hle, ?_, ?_⟩
  · intro d hd
    replace hd : d ∈ putThread p.calls k none := hd
    exact O.calls d ((mem_putThread hd).resolve_left (by simp))
  · intro i hlt hi
    replace hlt : record.index < i := hlt
    obtain ⟨d, hd, hdstage, hdi⟩ := O.owned i (by omega) hi
    refine ⟨d, (mem_putThread_of_mem hc none hd).resolve_left ?_, hdstage, hdi⟩
    rintro rfl
    simp only at hdi
    omega

/-- **Every move but a failed flush keeps the invariant.** -/
theorem move (O : ∀ p, s.process = some p → OwnedOk p) {a : StorageAction}
    (ha : flushesSucceed s a) (mv : StorageMove hash s a s') :
    ∀ p, s'.process = some p → OwnedOk p := by
  cases mv with
  | idle => exact O
  | opened _ hopen => rintro q ⟨⟩; exact of_open hopen
  | crash _ => rintro q ⟨⟩
  | called hp _ => rintro q ⟨⟩; exact (O _ hp).called _
  | appended hp hc _ _ => rintro q ⟨⟩; exact (O _ hp).appended hc
  | appendFailed hp hc _ _ _ => rintro q ⟨⟩; exact (O _ hp).dropped hc rfl
  | refused hp _ hopen =>
    rw [(O _ hp).opened] at hopen
    cases hopen
  | covered hp hc hstage _ =>
    rintro q ⟨⟩
    exact (O _ hp).put hc (by rcases hstage with h | h <;> rw [h] <;> simp) (by simp) rfl rfl
  | waits hp hc _ _ =>
    rintro q ⟨⟩
    exact (O _ hp).put hc (by simp) (by simp) rfl rfl
  | leads hp hc hstage _ _ =>
    rintro q ⟨⟩
    exact (O _ hp).put hc (by rcases hstage with h | h <;> rw [h] <;> simp) (by simp) rfl rfl
  | flushed hp hc =>
    rintro q ⟨⟩
    exact (O _ hp).put hc (by simp) (by simp) rfl rfl
  | flushFailed _ _ => exact absurd ha id
  | applied hp hc hbarrier =>
    rintro q ⟨⟩
    exact (O _ hp).applied hc hbarrier _

end OwnedOk

/-- **Every index that is not applied has a call that will apply it**, in runs without a failed
flush, crashes and failed writes included. -/
theorem unwedged_run {hash : Bytes → Nat} {file : Bytes} {s : Machine} {p : Process}
    (hr : Runs.Run (Machine.step hash) { file := file } flushesSucceed s)
    (hp : s.process = some p) : Unwedged p := by
  suffices O : ∀ p, s.process = some p → OwnedOk p from (O p hp).toUnwedged
  clear hp
  induction hr with
  | init => rintro q ⟨⟩
  | step _ ha hs ih => exact OwnedOk.move ih ha (storage_move hs)

/-- Two calls in progress, the second one a waiter, behind one that has returned. -/
theorem unwedged_run_waiter :
    ∃ s p, Runs.Run (Machine.step fun _ => 0) {} flushesSucceed s ∧ s.process = some p ∧
      (p.storage.lastAppliedIndex = 1 ∧ p.storage.wal.lastIndex = 3) ∧ Unwedged p := by
  obtain ⟨s, hr, hs⟩ : ∃ s, Runs.Run (Machine.step fun _ => 0) {} flushesSucceed s ∧
      s.process.any (fun p =>
        decide (p.storage.lastAppliedIndex = 1 ∧ p.storage.wal.lastIndex = 3)) = true :=
    exists_run
      [.openStorage, .set [97] [49], .append 0 .complete, .sync 0, .flush 0 none, .apply 0,
        .set [98] [50], .delete [97], .append 1 .complete, .append 0 .complete, .sync 1, .sync 0]
      (by decide +kernel)
  obtain ⟨p, hp, hs⟩ := exists_of_any hs
  exact ⟨s, p, hr, hp, of_decide_eq_true hs, unwedged_run hr hp⟩

/-- **In general an index can be left without a call**: the flush of the only writer fails, and
with no call in progress `last_applied_index_` is `0` and `last_index_` is `1`. -/
theorem failed_flush_wedges :
    ¬ ∀ (hash : Bytes → Nat) (s : Machine) (p : Process),
      Runs.Run (Machine.step hash) {} oneIncarnation s → s.process = some p → Unwedged p := by
  intro hall
  obtain ⟨s, hr, hs⟩ : ∃ s, Runs.Run (Machine.step fun _ => 0) {} oneIncarnation s ∧
      s.process.any (fun p => decide (p.calls = [] ∧ p.storage.lastAppliedIndex = 0 ∧
        p.storage.wal.lastIndex = 1)) = true :=
    exists_run
      [.openStorage, .set [97] [49], .append 0 .complete, .sync 0, .flush 0 (some "EIO")]
      (by decide +kernel)
  obtain ⟨p, hp, hs⟩ := exists_of_any hs
  obtain ⟨hcalls, happlied, hlast⟩ := of_decide_eq_true hs
  have hdrained := (hall _ s p hr hp).drained hcalls
  omega

/-! ## What a failed flush leaves behind -/

/-- Index `i` is in the log, not applied, and no call in progress has it. -/
structure Orphaned (i : Nat) (p : Process) : Prop where
  pending : p.storage.lastAppliedIndex < i
  last : i ≤ p.storage.wal.lastIndex
  nobody : ∀ c ∈ p.calls, c.stage ≠ .append → c.record.index ≠ i

/-- The process is not killed. -/
def noCrash : Machine → StorageAction → Prop
  | _, .crash _ => False
  | _, _ => True

section Orphans

variable {hash : Bytes → Nat} {file : Bytes} {s s' t : Machine} {p : Process} {i k : Nat}

/-- The call that led a failed flush leaves its index to nobody. -/
theorem PathOk.orphans (P : PathOk hash file s p) {record : WalRecord}
    (hc : p.calls[k]? = some ⟨record, .leading⟩) (wal : WalWriter)
    (hlast : wal.lastIndex = p.storage.wal.lastIndex) :
    Orphaned record.index (p.put wal k none) := by
  have C := P.calls _ (List.mem_of_getElem? hc)
  have hle := (C.placed (by simp)).index_le P.numbered
  refine ⟨C.ahead (by simp), ?_, ?_⟩
  · show record.index ≤ wal.lastIndex
    rw [hlast, P.last]
    exact hle
  · intro d hd hstage
    obtain ⟨j, hjk, hj⟩ := List.mem_eraseIdx_iff_getElem?.mp hd
    exact pairwise_getElem? Apart.symm P.apart hjk hj hc hstage (by simp)

theorem Orphaned.put (O : Orphaned i p) {wal : WalWriter} {next : Option Call}
    (hlast : p.storage.wal.lastIndex ≤ wal.lastIndex)
    (hnext : ∀ d, next = some d → d.record.index ≠ i) : Orphaned i (p.put wal k next) := by
  refine ⟨O.pending, Nat.le_trans O.last hlast, ?_⟩
  intro d hd hstage
  rcases Process.mem_put hd with h | h
  · exact hnext d h
  · exact O.nobody d h hstage

/-- A call that goes on keeps its index. -/
theorem Orphaned.goes_on (O : Orphaned i p) {wal : WalWriter} {c : Call} {stage : CallStage}
    (hc : p.calls[k]? = some c) (hstage : c.stage ≠ .append)
    (hlast : wal.lastIndex = p.storage.wal.lastIndex) :
    Orphaned i (p.put wal k (some { c with stage := stage })) := by
  refine O.put (Nat.le_of_eq hlast.symm) ?_
  intro d hd
  cases hd
  exact O.nobody c (List.mem_of_getElem? hc) hstage

/-- **An orphaned index stays orphaned**: the barrier lets no call past it. -/
theorem Orphaned.move (O : Orphaned i p) (hp : s.process = some p) {a : StorageAction}
    (ha : noCrash s a) (mv : StorageMove hash s a s') :
    ∃ p', s'.process = some p' ∧ Orphaned i p' := by
  have hproc : ∀ {q : Process}, s.process = some q → q = p := by
    intro q hq
    rw [hp] at hq
    exact (Option.some.inj hq).symm
  cases mv with
  | idle => exact ⟨p, hp, O⟩
  | opened hp' _ => rw [hp] at hp'; cases hp'
  | crash _ => exact absurd ha id
  | called hp' _ =>
    obtain rfl := hproc hp'
    refine ⟨_, rfl, O.pending, O.last, ?_⟩
    intro c hc hstage
    rcases List.mem_append.mp hc with h | h
    · exact O.nobody c h hstage
    · obtain rfl := List.mem_singleton.mp h
      exact absurd rfl hstage
  | appended hp' _ _ _ =>
    obtain rfl := hproc hp'
    refine ⟨_, rfl, O.put (Nat.le_succ _) ?_⟩
    intro d hd
    cases hd
    have hle := O.last
    show _ + 1 ≠ i
    omega
  | appendFailed hp' _ _ _ _ =>
    obtain rfl := hproc hp'
    exact ⟨_, rfl, O.put (Nat.le_refl _) (fun d hd => by cases hd)⟩
  | refused hp' _ _ =>
    obtain rfl := hproc hp'
    exact ⟨_, rfl, O.put (Nat.le_refl _) (fun d hd => by cases hd)⟩
  | covered hp' hc hstage _ =>
    obtain rfl := hproc hp'
    exact ⟨_, rfl, O.goes_on hc (by rcases hstage with h | h <;> rw [h] <;> simp) rfl⟩
  | waits hp' hc _ _ =>
    obtain rfl := hproc hp'
    exact ⟨_, rfl, O.goes_on hc (by simp) rfl⟩
  | leads hp' hc hstage _ _ =>
    obtain rfl := hproc hp'
    exact ⟨_, rfl, O.goes_on hc (by rcases hstage with h | h <;> rw [h] <;> simp) rfl⟩
  | flushed hp' hc =>
    obtain rfl := hproc hp'
    exact ⟨_, rfl, O.goes_on hc (by simp) rfl⟩
  | flushFailed hp' _ =>
    obtain rfl := hproc hp'
    exact ⟨_, rfl, O.put (Nat.le_refl _) (fun d hd => by cases hd)⟩
  | applied hp' hc hbarrier =>
    obtain rfl := hproc hp'
    have hne := O.nobody _ (List.mem_of_getElem? hc) (by simp)
    have hpending := O.pending
    refine ⟨_, rfl, ?_, O.last, ?_⟩
    · simp only at hne ⊢
      omega
    · intro d hd
      replace hd : d ∈ putThread _ _ none := hd
      exact O.nobody d ((mem_putThread hd).resolve_left (by simp))

theorem orphaned_run (O : Orphaned i p) (hp : s.process = some p)
    (hr : Runs.Run (Machine.step hash) s noCrash t) :
    ∃ p', t.process = some p' ∧ Orphaned i p' := by
  induction hr with
  | init => exact ⟨p, hp, O⟩
  | step _ ha hs ih =>
    obtain ⟨q, hq, Q⟩ := ih
    exact Q.move hq ha (storage_move hs)

/-- **After a failed flush no call behind its leader is ever applied** until the process is
killed: `flushesSucceed` cannot be weakened. -/
theorem failed_flush_orphans {errno : String} (hfile : Numbered (scanWal file).frames)
    (hr : Runs.Run (Machine.step hash) { file := file } oneIncarnation s)
    (hs : s.step hash (.flush k (some errno)) = some s') :
    ∃ i, ∀ t, Runs.Run (Machine.step hash) s' noCrash t →
      ∃ p, t.process = some p ∧ Orphaned i p ∧ ¬ Unwedged p := by
  have hflush : ∃ p record, s.process = some p ∧ p.calls[k]? = some ⟨record, .leading⟩ ∧
      s'.process = some (p.put { p.storage.wal with flushInProgress := false } k none) := by
    simp only [Machine.step] at hs
    split at hs
    · cases hs
    · split at hs
      · cases hs
        exact ⟨_, _, ‹_›, ‹_›, rfl⟩
      · cases hs
  obtain ⟨p, record, hp, hc, hp'⟩ := hflush
  rcases run_pathOk hfile hr with rfl | ⟨q, hq, P⟩
  · cases hp
  · rw [hp] at hq
    cases hq
    refine ⟨record.index, fun t ht => ?_⟩
    obtain ⟨q, hq, O⟩ :=
      orphaned_run (P.orphans hc { p.storage.wal with flushInProgress := false } rfl) hp' ht
    refine ⟨q, hq, O, fun U => ?_⟩
    obtain ⟨c, hc, hstage, hci⟩ := U.owned _ O.pending O.last
    exact O.nobody c hc hstage hci

end Orphans

end NeuralKV
