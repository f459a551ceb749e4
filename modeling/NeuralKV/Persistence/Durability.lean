import NeuralKV.Persistence.DurableStorage

/-!
# Crashes and acknowledged writes

What `DurableStorage::Open` finds after any number of crashes.

* `Stored` — the invariant: the file is a sequence of whole records numbered `1, 2, ...` and a
  torn one, and every acknowledged record lies in the part that has been fsync'd.
* `acknowledged_writes_survive` — if every `Append` finds a file of whole records, then `Open`
  always succeeds and the recovered store replays every acknowledged record.
* `append_after_torn_tail` — in general it does not: `OpenOrCreate` leaves a torn record where it
  is and the next `Append` writes behind it.
-/

set_option autoImplicit false

namespace NeuralKV

open Framing
open Runs (exists_run putThread mem_putThread)

/-! ## Places in the file -/

/-- Bytes taken by the first `i` records. -/
def extent (rs : List WalRecord) (i : Nat) : Nat := (encodeAll encodeWalRecord (rs.take i)).length

/-- Record `r` is in the file, at the place its index says. -/
def Placed (rs : List WalRecord) (r : WalRecord) : Prop := rs[r.index - 1]? = some r

section Places

variable {rs rs' : List WalRecord} {r : WalRecord}

theorem Placed.mem (h : Placed rs r) : r ∈ rs := List.mem_of_getElem? h

theorem Placed.index_le (h : Placed rs r) (hn : Numbered rs) : r.index ≤ rs.length := by
  have hlt := (List.getElem?_eq_some_iff.mp h).1
  have := hn _ r h
  omega

theorem Placed.concat (h : Placed rs r) (x : WalRecord) : Placed (rs ++ [x]) r := by
  unfold Placed
  rw [List.getElem?_append_left (List.getElem?_eq_some_iff.mp h).1]
  exact h

theorem Placed.take (h : Placed rs r) (hn : Numbered rs) {j : Nat} (hj : r.index ≤ j) :
    Placed (rs.take j) r := by
  have := hn _ r h
  unfold Placed
  rw [List.getElem?_take_of_lt (by omega)]
  exact h

theorem extent_concat {i : Nat} (hi : i ≤ rs.length) (x : WalRecord) :
    extent (rs ++ [x]) i = extent rs i := by
  unfold extent
  rw [List.take_append_of_le_length hi]

theorem extent_take {i j : Nat} (hi : i ≤ j) : extent (rs.take j) i = extent rs i := by
  unfold extent
  rw [List.take_take, Nat.min_eq_left hi]

theorem Numbered.pairwise (h : Numbered rs) : rs.Pairwise (fun a b => a.index < b.index) := by
  rw [List.pairwise_iff_getElem]
  intro i j hi hj hij
  have h₁ := h i _ (List.getElem?_eq_getElem hi)
  have h₂ := h j _ (List.getElem?_eq_getElem hj)
  omega

end Places

/-! ## The invariant -/

/-- What holds of a call in progress, over a file with the records `rs` of which `durable` bytes
have been fsync'd. -/
structure CallOk (rs : List WalRecord) (durable synced : Nat) (c : Call) : Prop where
  fields : c.record.key ≠ [] ∧ (c.record.op = .kSet → c.record.value ≠ []) ∧ c.record.term = 0
  placed : c.stage ≠ .append → Placed rs c.record
  fixed : c.stage ≠ .append → c.record.index ≤ synced → extent rs c.record.index ≤ durable
  applying : c.stage = .apply → c.record.index ≤ synced

structure ProcessOk (rs : List WalRecord) (durable : Nat) (p : Process) : Prop where
  opened : p.storage.wal.openStatus.ok = true
  last : p.storage.wal.lastIndex = rs.length
  synced : p.storage.wal.syncedIndex ≤ rs.length
  calls : ∀ c ∈ p.calls, CallOk rs durable p.storage.wal.syncedIndex c

/-- The file holds the records `rs`, numbered from `1`, and the torn record `t`. -/
structure Stored (s : Machine) (rs : List WalRecord) (t : Bytes) : Prop where
  file : s.file = encodeAll encodeWalRecord rs ++ t
  torn : Torn WalRecord.Encodable encodeWalRecord t
  encodable : ∀ r ∈ rs, r.Encodable
  numbered : Numbered rs
  durable : s.durable ≤ s.file.length
  size : s.file.length ≤ maxFileSize
  written : ∀ r ∈ rs, r ∈ s.written
  acked : ∀ r ∈ s.acked, Placed rs r ∧ extent rs r.index ≤ s.durable
  process : ∀ p, s.process = some p → ProcessOk rs s.durable p

/-- `Append` finds a file that ends with a complete record, and gets fields within the reader's
cap. -/
def appendsWhole (s : Machine) : StorageAction → Prop
  | .append k _ =>
    (scanWal s.file).tail = [] ∧
      ∀ c ∈ (s.process.bind (·.calls[k]?)),
        c.record.key.length ≤ kMaxFieldSize ∧ c.record.value.length ≤ kMaxFieldSize
  | _ => True

instance (s : Machine) (a : StorageAction) : Decidable (appendsWhole s a) := by
  unfold appendsWhole
  split <;> infer_instance

section Preservation

variable {hash : Bytes → Nat} {s s' : Machine} {rs : List WalRecord} {t : Bytes} {d : Nat}
  {p : Process}

theorem CallOk.concat {synced : Nat} {c : Call} (C : CallOk rs d synced c) (hn : Numbered rs)
    (x : WalRecord) : CallOk (rs ++ [x]) d synced c := by
  refine ⟨C.fields, fun h => (C.placed h).concat x, ?_, C.applying⟩
  intro h hle
  rw [extent_concat ((C.placed h).index_le hn)]
  exact C.fixed h hle

theorem Process.mem_put {wal : WalWriter} {k : Nat} {next : Option Call} {c : Call}
    (h : c ∈ (p.put wal k next).calls) : next = some c ∨ c ∈ p.calls := mem_putThread h

/-- A scope of one call that leaves the counters of the writer alone. -/
theorem ProcessOk.put (P : ProcessOk rs d p) {wal : WalWriter} {k : Nat} {next : Option Call}
    (hopen : wal.openStatus = p.storage.wal.openStatus)
    (hlast : wal.lastIndex = p.storage.wal.lastIndex)
    (hsynced : wal.syncedIndex = p.storage.wal.syncedIndex)
    (hnext : ∀ c, next = some c → CallOk rs d p.storage.wal.syncedIndex c) :
    ProcessOk rs d (p.put wal k next) := by
  refine ⟨?_, hlast.trans P.last, ?_, ?_⟩
  · show wal.openStatus.ok = true
    rw [hopen]
    exact P.opened
  · show wal.syncedIndex ≤ _
    rw [hsynced]
    exact P.synced
  · intro c hc
    show CallOk rs d wal.syncedIndex c
    rw [hsynced]
    rcases Process.mem_put hc with h | h
    · exact hnext c h
    · exact P.calls c h

/-- A call moves on to a stage that asks for no more than the one before. -/
theorem CallOk.setStage {synced : Nat} {c : Call} (C : CallOk rs d synced c) {stage : CallStage}
    (hc : c.stage ≠ .append) (happly : stage = .apply → c.record.index ≤ synced) :
    CallOk rs d synced { c with stage := stage } :=
  ⟨C.fields, fun _ => C.placed hc, fun _ => C.fixed hc, happly⟩

/-- The record `Append` is about to write survives encoding. -/
theorem Stored.encodable_next (S : Stored s rs t) {record : WalRecord} {stage : CallStage}
    {synced : Nat} (C : CallOk rs d synced ⟨record, stage⟩)
    (hkey : record.key.length ≤ kMaxFieldSize) (hvalue : record.value.length ≤ kMaxFieldSize) :
    ({ record with index := rs.length + 1 } : WalRecord).Encodable := by
  obtain ⟨hk, hv, hterm⟩ := C.fields
  refine ⟨?_, ?_, ?_⟩
  · simp only [WalRecord.readable, Bool.and_eq_true, decide_eq_true_eq]
    exact ⟨⟨⟨hkey, hvalue⟩, hk⟩, hv⟩
  · show record.term < 2 ^ 64
    rw [hterm]
    decide
  · -- a record takes at least one byte, so a file of this size holds fewer than `2 ^ 63` of them
    have hlen := length_le_stream walReads rs t
    rw [← S.file] at hlen
    have hsize := S.size
    unfold maxFileSize at hsize
    show rs.length + 1 < 2 ^ 64
    omega

/-- What `Open` makes of the file. -/
theorem Stored.open_eq (S : Stored s rs t) (hash : Bytes → Nat) :
    DurableStorage.Open hash s.file = .ok
      { wal := { lastIndex := rs.length, syncedIndex := rs.length }
        kv := replay (ShardedKV.empty hash) rs
        lastAppliedIndex := rs.length } := by
  have hscan := scanWal_frames S.encodable S.torn
  rw [← S.file] at hscan
  have hlast : lastIndexOf rs = rs.length := S.numbered.getLast
  simp only [DurableStorage.Open, recoverFromWal, WalWriter.openOrCreate, hscan, hlast]
  rfl

theorem Stored.opened (S : Stored s rs t) {storage : DurableStorage}
    (h : DurableStorage.Open hash s.file = .ok storage) :
    Stored { s with process := some { storage } } rs t := by
  rw [S.open_eq hash] at h
  cases h
  refine { S with process := ?_ }
  intro p hp
  cases hp
  exact ⟨rfl, rfl, Nat.le_refl _, fun c hc => by cases hc⟩

/-- **A crash keeps the invariant**: the records before the cut stay, the fsync'd ones among them. -/
theorem Stored.crash (S : Stored s rs t) {kept : Nat} (hk : s.durable ≤ kept) :
    ∃ rs' t', Stored { s with file := s.file.take kept, process := none } rs' t' := by
  obtain ⟨j, u, hcut, htorn, hbefore⟩ := cut_frames S.torn rs S.encodable kept
  rw [← S.file] at hcut
  refine ⟨rs.take j, u, ?_⟩
  exact
    { file := hcut
      torn := htorn
      encodable := fun r hr => S.encodable r (List.mem_of_mem_take hr)
      numbered := S.numbered.of_isPrefix (List.take_prefix j rs)
      durable := by
        show s.durable ≤ (s.file.take kept).length
        rw [List.length_take]
        exact Nat.le_min.mpr ⟨hk, S.durable⟩
      size := Nat.le_trans (List.length_take_le' kept s.file) S.size
      written := fun r hr => S.written r (List.mem_of_mem_take hr)
      acked := by
        intro r hr
        obtain ⟨hplaced, hext⟩ := S.acked r hr
        have hj := hbefore r.index (hplaced.index_le S.numbered) (Nat.le_trans hext hk)
        exact ⟨hplaced.take S.numbered hj, by rw [extent_take hj]; exact hext⟩
      process := fun p hp => by cases hp }

theorem Stored.called (S : Stored s rs t) (hp : s.process = some p) {record : WalRecord}
    (hreq : (∃ key value, setRecord key value = .ok record) ∨
      ∃ key, deleteRecord key = .ok record) :
    Stored { s with process := some { p with calls := p.calls ++ [{ record }] } } rs t := by
  have P := S.process p hp
  have hfields : record.key ≠ [] ∧ (record.op = .kSet → record.value ≠ []) ∧ record.term = 0 := by
    rcases hreq with ⟨key, value, h⟩ | ⟨key, h⟩
    · unfold setRecord at h
      split at h
      · cases h
      · split at h
        · cases h
        · cases h
          exact ⟨‹_›, fun _ => ‹_›, rfl⟩
    · unfold deleteRecord at h
      split at h
      · cases h
      · cases h
        exact ⟨‹_›, fun hop => (by cases hop), rfl⟩
  refine { S with process := ?_ }
  intro p' hp'
  cases hp'
  refine ⟨P.opened, P.last, P.synced, ?_⟩
  intro c hc
  rcases List.mem_append.mp hc with h | h
  · exact P.calls c h
  · obtain rfl := List.mem_singleton.mp h
    exact ⟨hfields, fun h => absurd rfl h, fun h => absurd rfl h, fun h => by cases h⟩

/-- The tail a scan leaves is the torn record. -/
theorem Stored.tail_eq (S : Stored s rs t) : (scanWal s.file).tail = t := by
  rw [S.file, scanWal_frames S.encodable S.torn]

/-- **An append behind a complete record keeps the invariant.** -/
theorem Stored.appended (S : Stored s rs []) (hp : s.process = some p) {k : Nat}
    {record : WalRecord} (hc : p.calls[k]? = some ⟨record, .append⟩)
    (hkey : record.key.length ≤ kMaxFieldSize) (hvalue : record.value.length ≤ kMaxFieldSize)
    (hsize : (s.file ++ encodeWalRecord
      { record with index := p.storage.wal.lastIndex + 1 }).length ≤ maxFileSize) :
    Stored
      { s with
        file := s.file ++ encodeWalRecord { record with index := p.storage.wal.lastIndex + 1 }
        process := some (p.put { p.storage.wal with lastIndex := p.storage.wal.lastIndex + 1 } k
          (some ⟨{ record with index := p.storage.wal.lastIndex + 1 }, .sync⟩))
        written := s.written ++ [{ record with index := p.storage.wal.lastIndex + 1 }] }
      (rs ++ [{ record with index := p.storage.wal.lastIndex + 1 }]) [] := by
  have P := S.process p hp
  have C := P.calls _ (List.mem_of_getElem? hc)
  have henc := S.encodable_next C hkey hvalue
  simp only [P.last] at hsize ⊢
  refine
    { file := ?_
      torn := Or.inl rfl
      encodable := ?_
      numbered := S.numbered.concat rfl
      durable := ?_
      size := hsize
      written := ?_
      acked := ?_
      process := ?_ }
  · show s.file ++ _ = _
    rw [encodeAll_concat, S.file]
    simp
  · intro r hr
    rcases List.mem_append.mp hr with h | h
    · exact S.encodable r h
    · obtain rfl := List.mem_singleton.mp h
      exact henc
  · show s.durable ≤ (s.file ++ _).length
    rw [List.length_append]
    exact Nat.le_add_right_of_le S.durable
  · intro r hr
    rcases List.mem_append.mp hr with h | h
    · exact List.mem_append_left _ (S.written r h)
    · exact List.mem_append_right _ h
  · intro r hr
    obtain ⟨hplaced, hext⟩ := S.acked r hr
    refine ⟨hplaced.concat _, ?_⟩
    rw [extent_concat (hplaced.index_le S.numbered)]
    exact hext
  · intro p' hp'
    cases hp'
    refine ⟨P.opened, ?_, ?_, ?_⟩
    · simp [Process.put]
    · show p.storage.wal.syncedIndex ≤ _
      rw [List.length_append]
      exact Nat.le_add_right_of_le P.synced
    · intro c hc'
      rcases Process.mem_put hc' with h | h
      · -- the call itself: its index is above everything synced so far
        cases h
        refine ⟨C.fields, fun _ => ?_, fun _ hle => ?_, fun h => by cases h⟩
        · simp [Placed]
        · have hsynced := P.synced
          have hle' : rs.length + 1 ≤ p.storage.wal.syncedIndex := hle
          omega
      · exact (P.calls c h).concat S.numbered _

theorem Stored.appendFailed (S : Stored s rs []) (hp : s.process = some p) {k written : Nat}
    {record : WalRecord} (hc : p.calls[k]? = some ⟨record, .append⟩)
    (hkey : record.key.length ≤ kMaxFieldSize) (hvalue : record.value.length ≤ kMaxFieldSize)
    (hwritten : written <
      (encodeWalRecord { record with index := p.storage.wal.lastIndex + 1 }).length)
    (hsize : (s.file ++ (encodeWalRecord
      { record with index := p.storage.wal.lastIndex + 1 }).take written).length ≤ maxFileSize) :
    Stored
      { s with
        file := s.file ++ (encodeWalRecord
          { record with index := p.storage.wal.lastIndex + 1 }).take written
        process := some (p.put p.storage.wal k none) }
      rs ((encodeWalRecord { record with index := p.storage.wal.lastIndex + 1 }).take written) := by
  have P := S.process p hp
  have henc := S.encodable_next (P.calls _ (List.mem_of_getElem? hc)) hkey hvalue
  simp only [P.last] at hsize hwritten ⊢
  refine
    { file := ?_
      torn := Or.inr ⟨_, henc, List.take_prefix _ _, ?_⟩
      encodable := S.encodable
      numbered := S.numbered
      durable := ?_
      size := hsize
      written := S.written
      acked := S.acked
      process := ?_ }
  · show s.file ++ _ = _
    rw [S.file, List.append_nil]
  · intro h
    have := congrArg List.length h
    rw [List.length_take] at this
    omega
  · show s.durable ≤ (s.file ++ _).length
    rw [List.length_append]
    exact Nat.le_add_right_of_le S.durable
  · intro p' hp'
    cases hp'
    exact P.put rfl rfl rfl (fun c h => by cases h)

/-- Scopes that touch neither the file nor the counters. -/
theorem Stored.putProcess (S : Stored s rs t) {p' : Process} (P : ProcessOk rs s.durable p') :
    Stored { s with process := some p' } rs t := by
  refine { S with process := ?_ }
  intro q hq
  cases hq
  exact P

/-- **A successful flush fixes everything written so far.** -/
theorem Stored.flushed (S : Stored s rs t) (hp : s.process = some p) {k : Nat} {record : WalRecord}
    (hc : p.calls[k]? = some ⟨record, .leading⟩) :
    Stored
      { s with
        durable := s.file.length
        process := some (p.put
          { p.storage.wal with syncedIndex := p.storage.wal.lastIndex, flushInProgress := false }
          k (some ⟨record, .apply⟩)) } rs t := by
  have P := S.process p hp
  have hext : ∀ i, extent rs i ≤ s.file.length := by
    intro i
    rw [S.file, List.length_append]
    exact Nat.le_add_right_of_le (length_encodeAll_take_le encodeWalRecord rs i)
  -- every call that has written its record is covered
  have hcalls : ∀ c : Call, CallOk rs s.durable p.storage.wal.syncedIndex c →
      CallOk rs s.file.length rs.length c := by
    intro c C
    refine ⟨C.fields, C.placed, fun _ _ => hext _, ?_⟩
    intro hstage
    exact (C.placed (by rw [hstage]; simp)).index_le S.numbered
  refine
    { S with
      durable := Nat.le_refl _
      acked := fun r hr => ⟨(S.acked r hr).1, hext _⟩
      process := ?_ }
  intro p' hp'
  cases hp'
  refine ⟨P.opened, P.last, Nat.le_of_eq P.last, ?_⟩
  intro c hc'
  show CallOk rs s.file.length p.storage.wal.lastIndex c
  rw [P.last]
  rcases Process.mem_put hc' with h | h
  · cases h
    have C := hcalls _ (P.calls _ (List.mem_of_getElem? hc))
    exact C.setStage (by simp) fun _ => (C.placed (by simp)).index_le S.numbered
  · exact hcalls c (P.calls c h)

theorem Stored.applied (S : Stored s rs t) (hp : s.process = some p) {k : Nat} {record : WalRecord}
    (hc : p.calls[k]? = some ⟨record, .apply⟩) (storage : DurableStorage)
    (hwal : storage.wal = p.storage.wal) :
    Stored
      { s with
        process := some { storage, calls := putThread p.calls k none }
        acked := s.acked ++ [record] } rs t := by
  have P := S.process p hp
  have C := P.calls _ (List.mem_of_getElem? hc)
  refine { S with acked := ?_, process := ?_ }
  · intro r hr
    rcases List.mem_append.mp hr with h | h
    · exact S.acked r h
    · obtain rfl := List.mem_singleton.mp h
      exact ⟨C.placed (by simp), C.fixed (by simp) (C.applying rfl)⟩
  · intro p' hp'
    cases hp'
    refine ⟨?_, ?_, ?_, ?_⟩
    · show storage.wal.openStatus.ok = true
      rw [hwal]; exact P.opened
    · show storage.wal.lastIndex = _
      rw [hwal]; exact P.last
    · show storage.wal.syncedIndex ≤ _
      rw [hwal]; exact P.synced
    · intro c hc'
      show CallOk rs s.durable storage.wal.syncedIndex c
      rw [hwal]
      replace hc' : c ∈ putThread p.calls k none := hc'
      rcases mem_putThread hc' with h | h
      · cases h
      · exact P.calls c h

/-- The inputs `appendsWhole` speaks of. -/
theorem Stored.append_inputs (S : Stored s rs t) (hp : s.process = some p) {k : Nat}
    {outcome : WriteOutcome} {c : Call} (hok : appendsWhole s (.append k outcome))
    (hc : p.calls[k]? = some c) :
    t = [] ∧ c.record.key.length ≤ kMaxFieldSize ∧ c.record.value.length ≤ kMaxFieldSize := by
  obtain ⟨htail, hfields⟩ := hok
  rw [S.tail_eq] at htail
  refine ⟨htail, hfields c ?_⟩
  rw [hp]
  exact hc

/-- **Every move keeps the invariant.** -/
theorem Stored.move (S : Stored s rs t) {a : StorageAction} (hok : appendsWhole s a)
    (mv : StorageMove hash s a s') : ∃ rs' t', Stored s' rs' t' := by
  cases mv with
  | idle => exact ⟨rs, t, S⟩
  | opened _ hopen => exact ⟨rs, t, S.opened hopen⟩
  | crash hk => exact S.crash hk
  | called hp hreq => exact ⟨rs, t, S.called hp (StorageAction.request_ok hreq)⟩
  | appended hp hc _ hsize =>
    obtain ⟨rfl, hkey, hvalue⟩ := S.append_inputs hp hok hc
    exact ⟨_, _, S.appended hp hc hkey hvalue hsize⟩
  | appendFailed hp hc hwritten _ hsize =>
    obtain ⟨rfl, hkey, hvalue⟩ := S.append_inputs hp hok hc
    exact ⟨_, _, S.appendFailed hp hc hkey hvalue hwritten hsize⟩
  | refused hp _ _ =>
    exact ⟨rs, t, S.putProcess ((S.process _ hp).put rfl rfl rfl (fun c h => by cases h))⟩
  | covered hp hc hstage hle =>
    have C := (S.process _ hp).calls _ (List.mem_of_getElem? hc)
    refine ⟨rs, t, S.putProcess ((S.process _ hp).put rfl rfl rfl ?_)⟩
    rintro c' h
    cases h
    exact C.setStage (by rcases hstage with h | h <;> rw [h] <;> simp) fun _ => hle
  | waits hp hc _ _ =>
    have C := (S.process _ hp).calls _ (List.mem_of_getElem? hc)
    refine ⟨rs, t, S.putProcess ((S.process _ hp).put rfl rfl rfl ?_)⟩
    rintro c' h
    cases h
    exact C.setStage (by simp) (by simp)
  | leads hp hc hstage _ _ =>
    have C := (S.process _ hp).calls _ (List.mem_of_getElem? hc)
    refine ⟨rs, t, S.putProcess ((S.process _ hp).put rfl rfl rfl ?_)⟩
    rintro c' h
    cases h
    exact C.setStage (by rcases hstage with h | h <;> rw [h] <;> simp) (by simp)
  | flushed hp hc => exact ⟨rs, t, S.flushed hp hc⟩
  | flushFailed hp _ =>
    exact ⟨rs, t, S.putProcess ((S.process _ hp).put rfl rfl rfl (fun c h => by cases h))⟩
  | applied hp hc _ => exact ⟨rs, t, S.applied hp hc _ rfl⟩

end Preservation

theorem run_stored {hash : Bytes → Nat} {s : Machine} (hr : Machine.Run hash appendsWhole s) :
    ∃ rs t, Stored s rs t := by
  induction hr with
  | init =>
    exact ⟨[], [], rfl, Or.inl rfl, fun r hr => (by cases hr), Numbered.nil, Nat.le_refl _,
      Nat.zero_le _, fun r hr => (by cases hr), fun r hr => (by cases hr), fun p hp => (by cases hp)⟩
  | step _ ha hs ih =>
    obtain ⟨rs, t, S⟩ := ih
    exact S.move ha (storage_move hs)

/-! ## Results -/

/-- `Open` succeeds, and the recovered store replays, in index order, records that were written,
among them every acknowledged one. -/
def Recovers (hash : Bytes → Nat) (s : Machine) : Prop :=
  ∃ storage rs, DurableStorage.Open hash s.file = .ok storage ∧
    storage.kv = replay (ShardedKV.empty hash) rs ∧
    rs.Pairwise (fun a b => a.index < b.index) ∧
    (∀ r ∈ rs, r ∈ s.written) ∧ ∀ r ∈ s.acked, r ∈ rs

/-- **Acknowledged writes survive any number of crashes**, in runs that meet `appendsWhole`. -/
theorem acknowledged_writes_survive {hash : Bytes → Nat} {s : Machine}
    (hr : Machine.Run hash appendsWhole s) : Recovers hash s := by
  obtain ⟨rs, t, S⟩ := run_stored hr
  exact ⟨_, rs, S.open_eq hash, rfl, S.numbered.pairwise, S.written,
    fun r hr' => (S.acked r hr').1.mem⟩

/-- Two acknowledged writes, with a torn record between them that a second crash removes. -/
theorem acknowledged_writes_survive_crashes :
    ∃ s, Machine.Run (fun _ => 0) appendsWhole s ∧
      (s.process.isNone = true ∧
        s.acked = [⟨0, 1, .kSet, [97], [49]⟩, ⟨0, 2, .kSet, [99], [51]⟩]) ∧
      Recovers (fun _ => 0) s := by
  obtain ⟨s, hr, hs⟩ : ∃ s, Machine.Run (fun _ => 0) appendsWhole s ∧
      decide (s.process.isNone = true ∧
        s.acked = [⟨0, 1, .kSet, [97], [49]⟩, ⟨0, 2, .kSet, [99], [51]⟩]) = true :=
    exists_run
      [.openStorage, .set [97] [49], .append 0 .complete, .sync 0, .flush 0 none, .apply 0,
        .set [98] [50], .append 0 .complete, .crash 40, .openStorage, .crash 31, .openStorage,
        .set [99] [51], .append 0 .complete, .sync 0, .flush 0 none, .apply 0, .crash 62]
      (by decide +kernel)
  exact ⟨s, hr, of_decide_eq_true hs, acknowledged_writes_survive hr⟩

/-- No `write` fails. -/
def writesSucceed : Machine → StorageAction → Prop
  | _, .append _ (.failed _ _) => False
  | _, _ => True

instance (s : Machine) (a : StorageAction) : Decidable (writesSucceed s a) := by
  unfold writesSucceed
  split <;> infer_instance

/-- A crash leaves `kept` bytes of an unacknowledged record; the next incarnation acknowledges a
write behind them and is killed in turn. -/
def tornThenAppended (kept : Nat) : List StorageAction :=
  [.openStorage, .set [97] [49], .append 0 .complete, .crash kept, .openStorage,
    .set [98] [50], .append 0 .complete, .sync 0, .flush 0 none, .apply 0, .crash (kept + 31)]

/-- **In general `Open` fails after a torn record**: with five bytes of it left, the reader takes
the record behind them apart at the wrong place. -/
theorem append_after_torn_tail :
    ¬ ∀ (hash : Bytes → Nat) (s : Machine), Machine.Run hash writesSucceed s →
      s.process = none → Recovers hash s := by
  intro hall
  obtain ⟨s, hr, hs⟩ : ∃ s, Machine.Run (fun _ => 0) writesSucceed s ∧
      (s.process.isNone && !(DurableStorage.Open (fun _ => 0) s.file).isOk) = true :=
    exists_run (tornThenAppended 5) (by decide +kernel)
  obtain ⟨hdown, hfail⟩ := Bool.and_eq_true_iff.mp hs
  obtain ⟨storage, _, hopen, _⟩ := hall _ s hr (Option.isNone_iff_eq_none.mp hdown)
  rw [hopen] at hfail
  cases hfail

/-- With one byte of it left, `Open` succeeds without the acknowledged write. -/
theorem torn_tail_hides_write :
    ∃ s, Machine.Run (fun _ => 0) writesSucceed s ∧
      ⟨0, 1, .kSet, [98], [50]⟩ ∈ s.acked ∧
      ∃ storage, DurableStorage.Open (fun _ => 0) s.file = .ok storage ∧
        storage.kv.get [98] = .error ShardedKV.keyNotFound := by
  obtain ⟨s, hr, hs⟩ : ∃ s, Machine.Run (fun _ => 0) writesSucceed s ∧
      (decide (⟨0, 1, .kSet, [98], [50]⟩ ∈ s.acked) &&
        match DurableStorage.Open (fun _ => 0) s.file with
        | .error _ => false
        | .ok storage => match storage.kv.get [98] with
          | .error status => decide (status = ShardedKV.keyNotFound)
          | .ok _ => false) = true :=
    exists_run (tornThenAppended 1) (by decide +kernel)
  obtain ⟨hacked, hget⟩ := Bool.and_eq_true_iff.mp hs
  refine ⟨s, hr, of_decide_eq_true hacked, ?_⟩
  split at hget
  · cases hget
  · rename_i storage hopen
    refine ⟨storage, hopen, ?_⟩
    split at hget
    · rename_i status hstatus
      rw [hstatus, of_decide_eq_true hget]
    · cases hget

end NeuralKV
