import NeuralKV.Lib.Reading
import NeuralKV.Persistence.DurableStorage

/-!
# Reading the WAL when `read` fails

`ReadNextWalRecord` of `src/persistence/wal_record.cpp` on an open file whose `read` calls may be
short, interrupted or fail, and the three loops around it: `RecoverFromWal`,
`WalWriter::OpenOrCreate` and `Log::Load`.  `ReadSome` is `Reading.Source.readSome`.

* `readNextWalRecordFrom_spec` — the reader returns what the bytes say, or a call has failed before
  the end of the file and it reports the end of the log.
* `readWal_reliable` — short reads and interruptions make no difference: without a hard error the
  loops are the ones of `NeuralKV.Persistence.DurableStorage`.
* `read_errors_reported_iff` — **the readers process every complete record and report every hard
  error exactly if** there is no hard error before the end of the file.
-/

set_option autoImplicit false

namespace NeuralKV

open Framing
open Reading (ReadResult Source readSome_spec)

/-! ## The reader -/

/-- `ReadNextWalRecord`: `none` for `has_record == false`, and the file afterwards.  A length of `0`
asks for nothing and makes no call. -/
def readNextWalRecordFrom (src : Source UInt8) :
    Except Status (Option WalRecord) × Source UInt8 :=
  let (header, src) := src.readSome kFixedHeaderSize
  if header.length < kFixedHeaderSize then (.ok none, src)
  else
    let keyLen := ofBE ((header.drop 21).take 4)
    if kMaxFieldSize < keyLen then (.error (corruptRecord "key length out of range"), src)
    else
      let (key, src) := src.readSome keyLen
      if key.length < keyLen then (.ok none, src)
      else
        let (valueLenBuf, src) := src.readSome 4
        if valueLenBuf.length < 4 then (.ok none, src)
        else
          let valueLen := ofBE valueLenBuf
          if kMaxFieldSize < valueLen then
            (.error (corruptRecord "value length out of range"), src)
          else
            let (value, src) := src.readSome valueLen
            if value.length < valueLen then (.ok none, src)
            else
              match checkRecord header key valueLenBuf value with
              | .error status => (.error status, src)
              | .ok record => (.ok (some record), src)

/-- The reader has returned what the bytes in front of it say. -/
def AgreesWith (src : Source UInt8) (out : Except Status (Option WalRecord) × Source UInt8) :
    Prop :=
  out.2.failedEarly = src.failedEarly ∧
    match readNextWalRecord src.unread with
    | .error status => out.1 = .error status
    | .ok none => out.1 = .ok none
    | .ok (some (record, rest)) => out.1 = .ok (some record) ∧ out.2.unread = rest

/-- **The reader returns what the bytes say, or takes a failed call for the end of the log.** -/
theorem readNextWalRecordFrom_spec (src : Source UInt8) :
    AgreesWith src (readNextWalRecordFrom src) ∨
      (readNextWalRecordFrom src).1 = .ok none ∧
        (readNextWalRecordFrom src).2.failedEarly = true := by
  unfold readNextWalRecordFrom
  -- one read after another: either it fails early and the reader stops, or it is a `take`
  rcases readSome_spec src kFixedHeaderSize with ⟨hgot, hrest, hfailed⟩ | ⟨hshort, hfailed⟩
  case inr =>
    right
    simp only
    rw [if_pos hshort]
    exact ⟨rfl, hfailed⟩
  unfold AgreesWith readNextWalRecord
  simp only [← hgot, ← hrest]
  generalize src.readSome kFixedHeaderSize = first at *
  obtain ⟨header, src₁⟩ := first
  rw [← hfailed]
  simp only
  split
  · exact Or.inl ⟨rfl, rfl⟩
  · split
    · exact Or.inl ⟨rfl, rfl⟩
    · rcases readSome_spec src₁ (ofBE ((header.drop 21).take 4)) with
        ⟨hgot₁, hrest₁, hfailed₁⟩ | ⟨hshort, hfailed₁⟩
      case inr =>
        right
        rw [if_pos hshort]
        exact ⟨rfl, hfailed₁⟩
      simp only [← hgot₁, ← hrest₁]
      generalize src₁.readSome (ofBE ((header.drop 21).take 4)) = second at *
      obtain ⟨key, src₂⟩ := second
      rw [← hfailed₁]
      simp only
      split
      · exact Or.inl ⟨rfl, rfl⟩
      · rcases readSome_spec src₂ 4 with ⟨hgot₂, hrest₂, hfailed₂⟩ | ⟨hshort, hfailed₂⟩
        case inr =>
          right
          rw [if_pos hshort]
          exact ⟨rfl, hfailed₂⟩
        simp only [← hgot₂, ← hrest₂]
        generalize src₂.readSome 4 = third at *
        obtain ⟨valueLenBuf, src₃⟩ := third
        rw [← hfailed₂]
        simp only
        split
        · exact Or.inl ⟨rfl, rfl⟩
        · split
          · exact Or.inl ⟨rfl, rfl⟩
          · rcases readSome_spec src₃ (ofBE valueLenBuf) with
              ⟨hgot₃, hrest₃, hfailed₃⟩ | ⟨hshort, hfailed₃⟩
            case inr =>
              right
              rw [if_pos hshort]
              exact ⟨rfl, hfailed₃⟩
            simp only [← hgot₃, ← hrest₃]
            generalize src₃.readSome (ofBE valueLenBuf) = fourth at *
            obtain ⟨value, src₄⟩ := fourth
            rw [← hfailed₃]
            simp only
            split
            · exact Or.inl ⟨rfl, rfl⟩
            · left
              cases checkRecord header key valueLenBuf value with
              | error status => exact ⟨rfl, rfl⟩
              | ok record => exact ⟨rfl, rfl, rfl⟩

theorem readNextWalRecordFrom_reliable {src : Source UInt8} (h : src.Reliable) :
    (readNextWalRecordFrom src).2.Reliable := by
  have h₁ := h.readSome kFixedHeaderSize
  unfold readNextWalRecordFrom
  simp only
  split
  · exact h₁
  · split
    · exact h₁
    · have h₂ := h₁.readSome (ofBE (((src.readSome kFixedHeaderSize).1.drop 21).take 4))
      split
      · exact h₂
      · have h₃ := h₂.readSome 4
        split
        · exact h₃
        · split
          · exact h₃
          · split
            · exact h₃.readSome _
            · split
              · exact h₃.readSome _
              · exact h₃.readSome _

/-! ## The loop around it -/

/-- What a loop over the records of the file comes to: the records, the error that ended it, and
whether a `read` has failed before the end of the file. -/
structure WalRead where
  records : List WalRecord
  error : Option Status
  failedEarly : Bool

/-- The loop `while (true) { ReadNextWalRecord(...) }`, at most `fuel` times. -/
def readRecords : Nat → Source UInt8 → WalRead
  | 0, src => ⟨[], none, src.failedEarly⟩
  | fuel + 1, src =>
    match readNextWalRecordFrom src with
    | (.error status, src) => ⟨[], some status, src.failedEarly⟩
    | (.ok none, src) => ⟨[], none, src.failedEarly⟩
    | (.ok (some record), src) =>
      let out := readRecords fuel src
      ⟨record :: out.records, out.error, out.failedEarly⟩

/-- The loop over a file that was just opened. -/
def readWal (file : Bytes) (schedule : List ReadResult) : WalRead :=
  readRecords file.length { unread := file, schedule }

theorem readRecords_spec : ∀ (fuel : Nat) (src : Source UInt8),
    ((readRecords fuel src).failedEarly = src.failedEarly ∧
        (readRecords fuel src).records = (scan readNextWalRecord fuel src.unread).frames ∧
        (readRecords fuel src).error = (scan readNextWalRecord fuel src.unread).error) ∨
      ((readRecords fuel src).failedEarly = true ∧ (readRecords fuel src).error = none ∧
        (readRecords fuel src).records <+: (scan readNextWalRecord fuel src.unread).frames)
  | 0, src => Or.inl ⟨rfl, rfl, rfl⟩
  | fuel + 1, src => by
    rcases readNextWalRecordFrom_spec src with hagrees | ⟨hnone, hfailed⟩
    · obtain ⟨hsame, hout⟩ := hagrees
      unfold readRecords scan
      generalize readNextWalRecordFrom src = out at *
      obtain ⟨result, src'⟩ := out
      simp only at hsame hout
      cases hread : readNextWalRecord src.unread with
      | error status =>
        rw [hread] at hout
        subst hout
        exact Or.inl ⟨hsame, rfl, rfl⟩
      | ok found =>
        rw [hread] at hout
        cases found with
        | none =>
          subst hout
          exact Or.inl ⟨hsame, rfl, rfl⟩
        | some found =>
          obtain ⟨record, rest⟩ := found
          obtain ⟨rfl, rfl⟩ := hout
          simp only
          rcases readRecords_spec fuel src' with ⟨hf, hr, he⟩ | ⟨hf, he, hr⟩
          · exact Or.inl ⟨hf.trans hsame, by rw [hr], he⟩
          · exact Or.inr ⟨hf, he, (List.prefix_cons_inj record).mpr hr⟩
    · right
      have hout : readRecords (fuel + 1) src = ⟨[], none, true⟩ := by
        unfold readRecords
        generalize readNextWalRecordFrom src = out at *
        obtain ⟨result, src'⟩ := out
        simp only at hnone hfailed
        subst hnone
        simp only [hfailed]
      rw [hout]
      exact ⟨rfl, rfl, List.nil_prefix⟩

theorem readRecords_reliable : ∀ (fuel : Nat) {src : Source UInt8}, src.Reliable →
    (readRecords fuel src).failedEarly = false
  | 0, _, h => h.failedEarly
  | fuel + 1, src, h => by
    have hnext := readNextWalRecordFrom_reliable h
    unfold readRecords
    generalize readNextWalRecordFrom src = out at *
    obtain ⟨result, src'⟩ := out
    cases result with
    | error status => exact hnext.failedEarly
    | ok found =>
      cases found with
      | none => exact hnext.failedEarly
      | some record => exact readRecords_reliable fuel hnext

/-- **Short reads and interruptions make no difference**: without a hard error the loop is the scan
of the bytes. -/
theorem readWal_reliable {schedule : List ReadResult} (h : .failed ∉ schedule) (file : Bytes) :
    (readWal file schedule).failedEarly = false ∧
      (readWal file schedule).records = (scanWal file).frames ∧
      (readWal file schedule).error = (scanWal file).error := by
  have hreliable : (readWal file schedule).failedEarly = false :=
    readRecords_reliable file.length ⟨h, rfl⟩
  refine ⟨hreliable, ?_⟩
  rcases readRecords_spec file.length { unread := file, schedule } with ⟨_, hscan⟩ | ⟨hfails, _⟩
  · exact hscan
  · exact absurd (hfails.symm.trans hreliable) (by decide)

/-! ## The three readers -/

section Readers

variable (file : Bytes) (schedule : List ReadResult)

/-- `RecoverFromWal` into an empty store. -/
def recoverReading (hash : Bytes → Nat) : Status × ShardedKV × Nat :=
  let found := readWal file schedule
  (found.error.getD .Ok, replay (ShardedKV.empty hash) found.records, lastIndexOf found.records)

/-- `WalWriter::OpenOrCreate`. -/
def WalWriter.openReading : WalWriter :=
  let found := readWal file schedule
  match found.error with
  | some status => { lastIndex := lastIndexOf found.records, openStatus := status }
  | none => { lastIndex := lastIndexOf found.records, syncedIndex := lastIndexOf found.records }

/-- `Log::Load`: the status and the entries. -/
def Log.loadReading : Status × List WalRecord :=
  let found := readWal file schedule
  (found.error.getD .Ok, found.records)

/-- A `read` of the loop fails with another error than `EINTR` before the end of the file. -/
def FailsEarly : Prop := (readWal file schedule).failedEarly = true

/-- What the readers owe: a reader that returns `Ok` has processed `records`, and none of them
returns `Ok` after a hard error before the end of the file. -/
structure ReportsReadErrors (records : List WalRecord) : Prop where
  recovered : ∀ hash, (recoverReading file schedule hash).1.ok = true →
    (recoverReading file schedule hash).2 =
      (replay (ShardedKV.empty hash) records, lastIndexOf records)
  opened : (WalWriter.openReading file schedule).openStatus.ok = true →
    (WalWriter.openReading file schedule).lastIndex = lastIndexOf records
  loaded : (Log.loadReading file schedule).1.ok = true →
    (Log.loadReading file schedule).2 = records
  reported : FailsEarly file schedule →
    (∀ hash, (recoverReading file schedule hash).1.ok = false) ∧
      (WalWriter.openReading file schedule).openStatus.ok = false ∧
      (Log.loadReading file schedule).1.ok = false

end Readers

/-- **Every complete record is processed and every hard error reported exactly if** no `read` fails
hard before the end of the file: the readers never report one. -/
theorem read_errors_reported_iff {rs : List WalRecord} (hrs : ∀ r ∈ rs, r.Encodable) {t : Bytes}
    (ht : Torn WalRecord.Encodable encodeWalRecord t) (schedule : List ReadResult) :
    ReportsReadErrors (encodeAll encodeWalRecord rs ++ t) schedule rs ↔
      ¬ FailsEarly (encodeAll encodeWalRecord rs ++ t) schedule := by
  have hscan := scanWal_frames hrs ht
  generalize encodeAll encodeWalRecord rs ++ t = file at *
  have hspec := readRecords_spec file.length { unread := file, schedule }
  unfold scanWal at hscan
  rw [hscan] at hspec
  simp only at hspec
  constructor
  · intro h hfails
    rcases hspec with ⟨hnot, _⟩ | ⟨_, hnone, _⟩
    · exact absurd (hfails.symm.trans hnot) (by decide)
    · have hstatus := (h.reported hfails).2.2
      have hok : (Log.loadReading file schedule).1.ok = true := by
        simp only [Log.loadReading, readWal, hnone, Option.getD_none, Status.ok_Ok]
      rw [hok] at hstatus
      cases hstatus
  · intro hnot
    rcases hspec with ⟨_, hrecords, herror⟩ | ⟨hfails, _⟩
    · refine ⟨fun hash _ => ?_, fun _ => ?_, fun _ => ?_, fun hfails => absurd hfails hnot⟩
      · simp only [recoverReading, readWal, hrecords]
      · simp only [WalWriter.openReading, readWal, herror, hrecords]
      · exact hrecords
    · exact absurd hfails hnot

theorem read_errors_reported_pieces :
    ReportsReadErrors (encodeAll encodeWalRecord [⟨0, 1, .kSet, [97], [49]⟩] ++ [])
      [.upTo 9, .interrupted, .upTo 3] [⟨0, 1, .kSet, [97], [49]⟩] := by
  refine (read_errors_reported_iff (by decide) (Or.inl rfl) _).mpr ?_
  intro hfails
  have hschedule : ReadResult.failed ∉ [.upTo 9, .interrupted, .upTo 3] := by decide
  have hreliable := readWal_reliable hschedule
    (encodeAll encodeWalRecord [⟨0, 1, .kSet, [97], [49]⟩] ++ [])
  exact absurd (hfails.symm.trans hreliable.1) (by decide)

/-- **In general they do not**: `read` fails with `EIO` at the second of two records, and the file
seems to end there. -/
theorem read_error_taken_for_end :
    ¬ ∀ (rs : List WalRecord) (schedule : List ReadResult), (∀ r ∈ rs, r.Encodable) →
      ReportsReadErrors (encodeAll encodeWalRecord rs) schedule rs := by
  intro hall
  have h := hall [⟨0, 1, .kSet, [97], [49]⟩, ⟨0, 2, .kSet, [98], [50]⟩]
    [.upTo 24, .upTo 0, .upTo 3, .upTo 0, .failed] (by decide)
  have hloaded := h.loaded (by decide +kernel)
  revert hloaded
  decide +kernel

end NeuralKV
