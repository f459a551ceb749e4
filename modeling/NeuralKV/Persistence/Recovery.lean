import NeuralKV.Persistence.DurableStorage

/-!
# Recovery from a cut or damaged file

What `RecoverFromWal` makes of a `wal.log` that is not a whole number of records, or in which a
record was damaged.

* `scanWal_cut`, `recovers_from_cut` — **wherever the file is cut**, the records before the cut are
  read, in order and field for field, and replayed.
* `RunsPastEnd` — the lengths that the bytes announce are within the cap and reach beyond the end
  of the file: this is what the reader takes for a torn tail (`readNextWalRecord_none`).
  `readNextWalRecord_announced` is the reader in terms of these lengths.
* `corruption_detected_iff` — **damage to a record is reported exactly if** the damaged lengths do
  not reach beyond the end of the file.
-/

set_option autoImplicit false

namespace NeuralKV

open Framing

/-! ## A cut file -/

theorem scanWal_cut {rs : List WalRecord} (hrs : ∀ r ∈ rs, r.Encodable) {p : Bytes}
    (hp : p <+: encodeAll encodeWalRecord rs) :
    ∃ j ≤ rs.length,
      (∀ i ≤ rs.length, i ≤ j ↔ (encodeAll encodeWalRecord (rs.take i)).length ≤ p.length) ∧
        ∃ u, scanWal p = ⟨rs.take j, u, none⟩ ∧ readNextWalRecord u = .ok none := by
  have hnil : Torn WalRecord.Encodable encodeWalRecord [] := Or.inl rfl
  obtain ⟨j, u, hcut, htorn, hbefore⟩ := cut_frames hnil rs hrs p.length
  rw [List.append_nil, ← List.prefix_iff_eq_take.mp hp] at hcut
  have htake : rs.take j = rs.take (min j rs.length) := by
    rw [← List.take_take, List.take_length]
  refine ⟨min j rs.length, Nat.min_le_right _ _, ?_, u, ?_, walReads.torn u htorn⟩
  · intro i hi
    constructor
    · intro hij
      have hle : i ≤ j := Nat.le_trans hij (Nat.min_le_left _ _)
      have hpart := length_encodeAll_take_le encodeWalRecord (rs.take j) i
      rw [List.take_take, Nat.min_eq_left hle] at hpart
      rw [hcut, List.length_append]
      omega
    · intro hlen
      exact Nat.le_min.mpr ⟨hbefore i hi hlen, hi⟩
  · rw [← htake, hcut]
    exact scanWal_frames (fun r hr => hrs r (List.mem_of_mem_take hr)) htorn

/-- **Recovery from any cut point**: `RecoverFromWal` on a beginning `p` of a file of records
replays the records that lie wholly inside `p`, and no others. -/
theorem recovers_from_cut {rs : List WalRecord} (hrs : ∀ r ∈ rs, r.Encodable) {p : Bytes}
    (hp : p <+: encodeAll encodeWalRecord rs) :
    ∃ j ≤ rs.length,
      (∀ i ≤ rs.length, i ≤ j ↔ (encodeAll encodeWalRecord (rs.take i)).length ≤ p.length) ∧
      (∃ u, scanWal p = ⟨rs.take j, u, none⟩ ∧ readNextWalRecord u = .ok none) ∧
      ∀ hash, recoverFromWal hash p =
        (.Ok, replay (ShardedKV.empty hash) (rs.take j), lastIndexOf (rs.take j)) := by
  obtain ⟨j, hj, hinside, u, hscan, hend⟩ := scanWal_cut hrs hp
  refine ⟨j, hj, hinside, ⟨u, hscan, hend⟩, fun hash => ?_⟩
  simp [recoverFromWal, hscan]

/-- Two records of 31 and 30 bytes, cut after 40: the first one is replayed. -/
theorem recovers_from_cut_second :
    recoverFromWal List.length
        ((encodeAll encodeWalRecord
          [⟨0, 1, .kSet, [97], [49]⟩, ⟨0, 2, .kDelete, [97], []⟩]).take 40) =
      (.Ok, replay (ShardedKV.empty List.length) [⟨0, 1, .kSet, [97], [49]⟩], 1) := by
  have hrs : ∀ r ∈ ([⟨0, 1, .kSet, [97], [49]⟩, ⟨0, 2, .kDelete, [97], []⟩] : List WalRecord),
      r.Encodable := by decide
  obtain ⟨j, _, hinside, _, hrecover⟩ := recovers_from_cut hrs (List.take_prefix 40 _)
  have hfirst : 1 ≤ j := (hinside 1 (by decide)).mpr (by decide +kernel)
  have hsecond : ¬ 2 ≤ j := fun h => absurd ((hinside 2 (by decide)).mp h) (by decide +kernel)
  obtain rfl : j = 1 := by omega
  exact hrecover List.length

/-! ## The lengths a record announces -/

/-- `key_len` of the record that starts here. -/
def announcedKeyLen (bytes : Bytes) : Nat := ofBE ((bytes.drop 21).take 4)

/-- `value_len` of the record that starts here, where `key_len` places it. -/
def announcedValueLen (bytes : Bytes) : Nat :=
  ofBE ((bytes.drop (kFixedHeaderSize + announcedKeyLen bytes)).take 4)

/-- Size of the record that starts here, by its own length fields. -/
def announcedSize (bytes : Bytes) : Nat :=
  kFixedHeaderSize + announcedKeyLen bytes + 4 + announcedValueLen bytes

/-- The record that starts here ends behind the end of the file, by lengths within the cap. -/
def RunsPastEnd (bytes : Bytes) : Prop :=
  announcedKeyLen bytes ≤ kMaxFieldSize ∧
    (bytes.length < kFixedHeaderSize + announcedKeyLen bytes + 4 ∨
      announcedValueLen bytes ≤ kMaxFieldSize ∧ bytes.length < announcedSize bytes)

instance (bytes : Bytes) : Decidable (RunsPastEnd bytes) :=
  inferInstanceAs (Decidable (_ ∧ _))

/-- `ReadNextWalRecord` by the lengths the record announces: the key and the second length field are
read together, since a short read of either is the end of the log. -/
theorem readNextWalRecord_announced {bytes : Bytes} (hlen : kFixedHeaderSize ≤ bytes.length) :
    readNextWalRecord bytes =
      if kMaxFieldSize < announcedKeyLen bytes then
        .error (corruptRecord "key length out of range")
      else if bytes.length < kFixedHeaderSize + announcedKeyLen bytes + 4 then .ok none
      else if kMaxFieldSize < announcedValueLen bytes then
        .error (corruptRecord "value length out of range")
      else if bytes.length < announcedSize bytes then .ok none
      else
        (checkRecord (bytes.take kFixedHeaderSize)
          ((bytes.drop kFixedHeaderSize).take (announcedKeyLen bytes))
          ((bytes.drop (kFixedHeaderSize + announcedKeyLen bytes)).take 4)
          ((bytes.drop (kFixedHeaderSize + announcedKeyLen bytes + 4)).take
            (announcedValueLen bytes))).map
          fun record => some (record, bytes.drop (announcedSize bytes)) := by
  have hkeyLen : ofBE (((bytes.take kFixedHeaderSize).drop 21).take 4) = announcedKeyLen bytes := by
    rw [List.drop_take, List.take_take]
    rfl
  have hvalueLen : ofBE ((bytes.drop (kFixedHeaderSize + announcedKeyLen bytes)).take 4) =
      announcedValueLen bytes := rfl
  unfold readNextWalRecord announcedSize
  simp only [hkeyLen, hvalueLen, List.length_take, List.length_drop, List.drop_drop]
  rw [if_neg (by omega)]
  generalize announcedKeyLen bytes = keyLen
  generalize announcedValueLen bytes = valueLen
  by_cases hkey : kMaxFieldSize < keyLen
  · rw [if_pos hkey, if_pos hkey]
  · rw [if_neg hkey, if_neg hkey]
    by_cases hkeyRead : bytes.length < kFixedHeaderSize + keyLen
    · rw [if_pos (by omega), if_pos (by omega)]
    · rw [if_neg (by omega)]
      by_cases hvalueLenRead : bytes.length < kFixedHeaderSize + keyLen + 4
      · rw [if_pos (by omega), if_pos hvalueLenRead]
      · rw [if_neg (by omega), if_neg hvalueLenRead]
        by_cases hvalue : kMaxFieldSize < valueLen
        · rw [if_pos hvalue, if_pos hvalue]
        · rw [if_neg hvalue, if_neg hvalue]
          by_cases hvalueRead : bytes.length < kFixedHeaderSize + keyLen + 4 + valueLen
          · rw [if_pos (by omega), if_pos hvalueRead]
          · rw [if_neg (by omega), if_neg hvalueRead]
            cases checkRecord _ _ _ _ with
            | error status => rfl
            | ok record => rfl

/-- **The reader reports the end of the log exactly where the announced record runs past it**, if
there are enough bytes for the fixed part of a record. -/
theorem readNextWalRecord_none {bytes : Bytes} (hlen : kFixedHeaderSize ≤ bytes.length) :
    readNextWalRecord bytes = .ok none ↔ RunsPastEnd bytes := by
  rw [readNextWalRecord_announced hlen, RunsPastEnd]
  by_cases hkey : announcedKeyLen bytes ≤ kMaxFieldSize
  · rw [if_neg (Nat.not_lt.mpr hkey)]
    by_cases hvalueLen : bytes.length < kFixedHeaderSize + announcedKeyLen bytes + 4
    · rw [if_pos hvalueLen]
      exact ⟨fun _ => ⟨hkey, Or.inl hvalueLen⟩, fun _ => rfl⟩
    · rw [if_neg hvalueLen]
      by_cases hvalue : announcedValueLen bytes ≤ kMaxFieldSize
      · rw [if_neg (Nat.not_lt.mpr hvalue)]
        by_cases hvalueRead : bytes.length < announcedSize bytes
        · rw [if_pos hvalueRead]
          exact ⟨fun _ => ⟨hkey, Or.inr ⟨hvalue, hvalueRead⟩⟩, fun _ => rfl⟩
        · -- the record is all there: it is accepted or corrupt
          rw [if_neg hvalueRead]
          constructor
          · intro h
            cases hcheck : checkRecord _ _ _ _ with
            | error status =>
              rw [hcheck] at h
              cases h
            | ok record =>
              rw [hcheck] at h
              cases h
          · rintro ⟨_, h | ⟨_, h⟩⟩
            · exact absurd h hvalueLen
            · exact absurd h hvalueRead
      · rw [if_pos (Nat.lt_of_not_le hvalue)]
        refine ⟨fun h => (by cases h), ?_⟩
        rintro ⟨_, h | ⟨h, _⟩⟩
        · exact absurd h hvalueLen
        · exact absurd h hvalue
  · rw [if_pos (Nat.lt_of_not_le hkey)]
    exact ⟨fun h => (by cases h), fun h => absurd h.1 hkey⟩

theorem announcedSize_encode {r : WalRecord} (h : r.Encodable) (rest : Bytes) :
    announcedSize (encodeWalRecord r ++ rest) = (encodeWalRecord r).length := by
  have P := h.parts
  have hkey : announcedKeyLen (encodeWalRecord r ++ rest) = r.key.length := by
    unfold announcedKeyLen
    rw [r.encode_eq, List.append_assoc,
      List.drop_append_of_le_length (by rw [P.headerRead]; decide),
      List.take_append_of_le_length (by rw [List.length_drop, P.headerRead]; decide)]
    exact P.keyLen
  have hvalue : announcedValueLen (encodeWalRecord r ++ rest) = r.value.length := by
    unfold announcedValueLen
    rw [hkey, ← List.drop_drop, r.encode_eq, List.append_assoc, List.drop_left' P.headerRead,
      List.append_assoc, List.drop_left, List.append_assoc, List.take_left' P.valueLenRead]
    exact P.valueLen
  rw [announcedSize, hkey, hvalue, r.encode_length]

/-- The bytes of a record with the CRC of `body` in front of `bytes`; what `EncodeWalRecord` writes
has its own body there. -/
def storedWith (body bytes : Bytes) : Bytes := toBE 4 (crc32 body).toNat ++ bytes

theorem encodeWalRecord_eq (r : WalRecord) : encodeWalRecord r = storedWith r.body r.body := rfl

theorem storedWith_body (body bytes rest : Bytes) :
    ((storedWith body bytes ++ rest).drop 4).take ((storedWith body bytes).length - 4) = bytes := by
  rw [storedWith, List.append_assoc, List.drop_left' (toBE_length _ _)]
  exact List.take_left' (by simp)

theorem storedWith_crc (body bytes rest : Bytes) :
    ofBE ((storedWith body bytes ++ rest).take 4) = (crc32 body).toNat := by
  rw [storedWith, List.append_assoc, List.take_left' (toBE_length _ _)]
  exact ofBE_toBE_of_lt (UInt32.toNat_lt _)

/-- The CRC that the record stores is not the CRC of its body, from the term to the last byte of
the value by the lengths it announces. -/
def CrcMismatch (bytes : Bytes) : Prop :=
  (crc32 ((bytes.drop 4).take (announcedSize bytes - 4))).toNat ≠ ofBE (bytes.take 4)

instance (bytes : Bytes) : Decidable (CrcMismatch bytes) :=
  inferInstanceAs (Decidable (_ ≠ _))

theorem not_crcMismatch_of_read {bytes rest : Bytes} {r : WalRecord}
    (h : readNextWalRecord bytes = .ok (some (r, rest))) :
    announcedSize bytes ≤ bytes.length ∧ ¬ CrcMismatch bytes := by
  obtain ⟨hr, rfl⟩ := readNextWalRecord_sound h
  have hsize := announcedSize_encode hr rest
  refine ⟨?_, ?_⟩
  · rw [hsize, List.length_append]
    exact Nat.le_add_right _ _
  · unfold CrcMismatch
    rw [hsize, encodeWalRecord_eq, storedWith_body, storedWith_crc]
    exact not_not.mpr rfl

/-! ## A damaged record -/

/-- The bytes of record `r`, which is not the last one, were replaced by as many others; where the
record lies that the new bytes announce, its CRC does not match. -/
structure Damaged (before : List WalRecord) (r : WalRecord) (after : List WalRecord)
    (bytes : Bytes) : Prop where
  valid : ∀ x ∈ before ++ r :: after, x.Encodable
  notLast : after ≠ []
  sameLength : bytes.length = (encodeWalRecord r).length
  crc : announcedSize (bytes ++ encodeAll encodeWalRecord after) ≤
      (bytes ++ encodeAll encodeWalRecord after).length →
    CrcMismatch (bytes ++ encodeAll encodeWalRecord after)

/-- The file with the damaged record in it. -/
def damagedFile (before : List WalRecord) (bytes : Bytes) (after : List WalRecord) : Bytes :=
  encodeAll encodeWalRecord before ++ (bytes ++ encodeAll encodeWalRecord after)

section Damage

variable {before after : List WalRecord} {r : WalRecord} {bytes : Bytes}

theorem Damaged.scan (h : Damaged before r after bytes) :
    (scanWal (damagedFile before bytes after)).frames = before ∧
      ((scanWal (damagedFile before bytes after)).error = none ↔
        RunsPastEnd (bytes ++ encodeAll encodeWalRecord after)) := by
  have hbefore : ∀ x ∈ before, x.Encodable := fun x hx => h.valid x (List.mem_append_left _ hx)
  have hheader : kFixedHeaderSize ≤ (bytes ++ encodeAll encodeWalRecord after).length := by
    rw [List.length_append, h.sameLength, r.encode_length]
    omega
  have hnone := readNextWalRecord_none hheader
  have hcrc := h.crc
  unfold scanWal damagedFile
  generalize bytes ++ encodeAll encodeWalRecord after = rest at *
  have hrest : rest ≠ [] := by
    rintro rfl
    cases hheader
  obtain ⟨fuel, hfuel⟩ := length_stream_eq walReads before hrest
  rw [hfuel, scan_append walReads rest (fuel + 1) before hbefore, Framing.scan]
  cases hread : readNextWalRecord rest with
  | error status =>
    rw [hread] at hnone
    refine ⟨List.append_nil before, ?_⟩
    rw [← hnone]
    exact ⟨fun he => (by cases he), fun he => (by cases he)⟩
  | ok found =>
    cases found with
    | none =>
      rw [hread] at hnone
      exact ⟨List.append_nil before, fun _ => hnone.mp rfl, fun _ => rfl⟩
    | some found =>
      obtain ⟨hfits, hmatch⟩ := not_crcMismatch_of_read hread
      exact absurd (hcrc hfits) hmatch

/-- **Damage to a record is reported exactly if** its damaged length fields do not announce, within
the cap, a record that runs past the end of the file. -/
theorem corruption_detected_iff (hash : Bytes → Nat) (h : Damaged before r after bytes) :
    (recoverFromWal hash (damagedFile before bytes after)).1.ok = false ↔
      ¬ RunsPastEnd (bytes ++ encodeAll encodeWalRecord after) := by
  rw [← h.scan.2]
  simp only [recoverFromWal]
  cases he : (scanWal (damagedFile before bytes after)).error with
  | none => simp
  | some status => simp [scanWal_error he]

end Damage

theorem corruption_detected_value :
    (recoverFromWal List.length
      (damagedFile [] ((encodeWalRecord ⟨0, 1, .kSet, [97], [49]⟩).dropLast ++ [48])
        [⟨0, 2, .kSet, [98], [50]⟩])).1.ok = false := by
  exact (corruption_detected_iff List.length (r := ⟨0, 1, .kSet, [97], [49]⟩)
    ⟨by decide, by decide, by decide +kernel, fun _ => by decide +kernel⟩).mpr (by decide +kernel)

/-- **In general it is not**: the third byte of `key_len` of the first of two records flips, the
record seems to run past the end of the file, and recovery returns `Ok` with an empty store.  The
stored CRC matches neither reading of the damaged body. -/
theorem corruption_taken_for_torn_tail :
    ¬ ∀ (before after : List WalRecord) (r : WalRecord) (bytes : Bytes) (hash : Bytes → Nat),
      Damaged before r after bytes → (crc32 (bytes.drop 4)).toNat ≠ ofBE (bytes.take 4) →
      (recoverFromWal hash (damagedFile before bytes after)).1.ok = false := by
  intro hall
  have hok : (recoverFromWal List.length
      (damagedFile [] ((encodeWalRecord ⟨0, 1, .kSet, [97], [49]⟩).set 23 1)
        [⟨0, 2, .kSet, [98], [50]⟩])).1.ok = true := by decide +kernel
  have hfail := hall [] [⟨0, 2, .kSet, [98], [50]⟩] ⟨0, 1, .kSet, [97], [49]⟩
    ((encodeWalRecord ⟨0, 1, .kSet, [97], [49]⟩).set 23 1) List.length
    ⟨by decide, by decide, by decide +kernel, fun hfits => absurd hfits (by decide +kernel)⟩
    (by decide +kernel)
  rw [hok] at hfail
  cases hfail

end NeuralKV
