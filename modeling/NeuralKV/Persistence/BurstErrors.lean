import NeuralKV.Lib.Crc
import NeuralKV.Persistence.Recovery

/-!
# Burst errors in a record

What the CRC of a record is good for.  `Crc32` is the bitwise algorithm for the reflected polynomial
`0xEDB88320`, so a change of at most four consecutive bytes, which is no longer than its register,
never leaves the CRC as it was.

* `crc32_ne_of_burst` — two strings that differ only inside such a window have different CRCs.
* `readNextWalRecord_mismatch` — the reader on a complete record with a wrong CRC.
* `crc_detects_bursts` — **every such burst in a record's body is rejected** as long as the two
  length fields are intact.
* `recovery_reports_burst` — recovery then stops at the damaged record with `kIOError`.
-/

set_option autoImplicit false

namespace NeuralKV

open Framing Crc

/-! ## `Crc32` as a cyclic code -/

/-- The generator polynomial, without its leading term and lowest power first. -/
def crcPoly : BitVec 32 := 0xEDB88320#32

theorem and_one_ne_zero (crc : UInt32) : crc &&& 1 ≠ 0 ↔ crc.toBitVec.getLsbD 0 = true := by
  rw [Ne, ← UInt32.toNat_inj, UInt32.toNat_and, BitVec.getLsbD, Nat.testBit_zero]
  show ¬ crc.toNat &&& 1 = 0 ↔ decide (crc.toNat % 2 = 1) = true
  rw [Nat.and_one_is_mod, decide_eq_true_eq]
  omega

theorem crcBit_toBitVec (crc : UInt32) : (crcBit crc).toBitVec = shift crcPoly crc.toBitVec := by
  unfold crcBit shift
  by_cases hlow : crc &&& 1 ≠ 0
  · rw [if_pos hlow, if_pos ((and_one_ne_zero crc).mp hlow)]
    rfl
  · rw [if_neg hlow, if_neg fun h => hlow ((and_one_ne_zero crc).mpr h)]
    rfl

theorem iterate_crcBit_toBitVec (n : Nat) (crc : UInt32) :
    (crcBit^[n] crc).toBitVec = (shift crcPoly)^[n] crc.toBitVec := by
  induction n generalizing crc with
  | zero => rfl
  | succ n ih =>
    rw [Function.iterate_succ_apply, Function.iterate_succ_apply, ih, crcBit_toBitVec]

/-- The outer loop of `Crc32` from any register. -/
theorem foldl_crcByte_toBitVec (data : Bytes) (crc : UInt32) :
    (data.foldl crcByte crc).toBitVec =
      digest crcPoly crc.toBitVec (data.map UInt8.toBitVec) := by
  induction data generalizing crc with
  | nil => rfl
  | cons byte data ih =>
    have hbyte : (crcByte crc byte).toBitVec = absorb crcPoly crc.toBitVec byte.toBitVec := by
      rw [crcByte, iterate_crcBit_toBitVec, UInt32.toBitVec_xor]
      rfl
    rw [List.foldl_cons, ih, hbyte]
    rfl

theorem crc32_inj {a b : Bytes} : crc32 a = crc32 b ↔
    digest crcPoly 0xFFFFFFFF#32 (a.map UInt8.toBitVec) =
      digest crcPoly 0xFFFFFFFF#32 (b.map UInt8.toBitVec) := by
  unfold crc32
  rw [UInt32.not_inj, ← UInt32.toBitVec_inj, foldl_crcByte_toBitVec, foldl_crcByte_toBitVec]
  rfl

/-- **The CRC changes with every burst of up to four bytes.** -/
theorem crc32_ne_of_burst {a b : Bytes} (hlen : a.length = b.length) (hne : a ≠ b)
    (hburst : Burst 4 a b) : crc32 a ≠ crc32 b := by
  obtain ⟨before, x, y, after, rfl, rfl, hxy, hfour⟩ := hburst.split hlen
  have hdiff : x.map UInt8.toBitVec ≠ y.map UInt8.toBitVec := by
    intro h
    have hinj : Function.Injective UInt8.toBitVec := fun _ _ => UInt8.toBitVec_inj.mp
    rw [List.map_injective_iff.mpr hinj h] at hne
    exact hne rfl
  rw [Ne, crc32_inj]
  simp only [List.map_append]
  refine digest_ne (by decide) ?_ ?_ hdiff _ _ _
  · rw [List.length_map, List.length_map, hxy]
  · rw [List.length_map]
    omega

/-! ## A record with a wrong CRC -/

theorem checkRecord_mismatch {header key valueLenBuf value : Bytes}
    (h : (crc32 (header.drop 4 ++ key ++ valueLenBuf ++ value)).toNat ≠ ofBE (header.take 4)) :
    checkRecord header key valueLenBuf value = .error (corruptRecord "CRC mismatch") := by
  unfold checkRecord
  rw [if_pos h]

/-- The body of a record, read in four pieces. -/
theorem body_pieces (bytes : Bytes) (keyLen valueLen : Nat) :
    (bytes.take kFixedHeaderSize).drop 4 ++ (bytes.drop kFixedHeaderSize).take keyLen ++
        (bytes.drop (kFixedHeaderSize + keyLen)).take 4 ++
        (bytes.drop (kFixedHeaderSize + keyLen + 4)).take valueLen =
      (bytes.drop 4).take (kFixedHeaderSize + keyLen + 4 + valueLen - 4) := by
  have hlen : kFixedHeaderSize + keyLen + 4 + valueLen - 4 = 21 + keyLen + 4 + valueLen := by
    rw [kFixedHeaderSize]
    omega
  rw [hlen, List.take_add, List.take_add, List.take_add, List.drop_take]
  simp only [List.drop_drop, kFixedHeaderSize, Nat.add_comm, Nat.add_left_comm]

/-- **A complete record with a wrong CRC is reported as such**, before anything else is checked. -/
theorem readNextWalRecord_mismatch {bytes : Bytes} (hkey : announcedKeyLen bytes ≤ kMaxFieldSize)
    (hvalue : announcedValueLen bytes ≤ kMaxFieldSize) (hsize : announcedSize bytes ≤ bytes.length)
    (hcrc : CrcMismatch bytes) :
    readNextWalRecord bytes = .error (corruptRecord "CRC mismatch") := by
  have hheader : kFixedHeaderSize ≤ bytes.length := by
    rw [announcedSize] at hsize
    omega
  have hfits : kFixedHeaderSize + announcedKeyLen bytes + 4 ≤ bytes.length := by
    rw [announcedSize] at hsize
    omega
  rw [readNextWalRecord_announced hheader, if_neg (Nat.not_lt.mpr hkey),
    if_neg (Nat.not_lt.mpr hfits), if_neg (Nat.not_lt.mpr hvalue), if_neg (Nat.not_lt.mpr hsize),
    checkRecord_mismatch]
  · rfl
  · rw [body_pieces, List.take_take]
    exact hcrc

/-! ## Bursts in the body of a record -/

/-- An encoded record is as long as its length fields announce. -/
theorem complete_encode {r : WalRecord} (h : r.Encodable) :
    announcedSize (storedWith r.body r.body) = (storedWith r.body r.body).length := by
  have hsize := announcedSize_encode h []
  rw [List.append_nil] at hsize
  exact hsize

/-- The body of a complete record was damaged within four consecutive bytes, and neither of its two
length fields was hit. -/
structure BodyBurst (body damaged : Bytes) : Prop where
  complete : announcedSize (storedWith body body) = (storedWith body body).length
  sameLength : damaged.length = body.length
  differs : damaged ≠ body
  burst : Burst 4 damaged body
  keyLen : announcedKeyLen (storedWith body damaged) = announcedKeyLen (storedWith body body)
  valueLen : announcedValueLen (storedWith body damaged) = announcedValueLen (storedWith body body)

/-- What a record announces does not depend on what follows it. -/
theorem announced_append {bytes : Bytes} (h : announcedSize bytes ≤ bytes.length) (rest : Bytes) :
    announcedKeyLen (bytes ++ rest) = announcedKeyLen bytes ∧
      announcedValueLen (bytes ++ rest) = announcedValueLen bytes := by
  rw [announcedSize, kFixedHeaderSize] at h
  have hkey : announcedKeyLen (bytes ++ rest) = announcedKeyLen bytes := by
    unfold announcedKeyLen
    rw [List.drop_append_of_le_length (by omega), List.take_append_of_le_length]
    rw [List.length_drop]
    omega
  refine ⟨hkey, ?_⟩
  unfold announcedValueLen
  rw [hkey, kFixedHeaderSize, List.drop_append_of_le_length (by omega),
    List.take_append_of_le_length]
  rw [List.length_drop]
  omega

section Body

variable {body damaged : Bytes} (h : BodyBurst body damaged) (rest : Bytes)

include h

/-- The damaged record announces its own size. -/
theorem BodyBurst.size_self :
    announcedSize (storedWith body damaged) = (storedWith body damaged).length := by
  have hlen : (storedWith body damaged).length = (storedWith body body).length := by
    simp [storedWith, h.sameLength]
  rw [hlen, ← h.complete, announcedSize, announcedSize, h.keyLen, h.valueLen]

theorem BodyBurst.announced :
    announcedKeyLen (storedWith body damaged ++ rest) = announcedKeyLen (storedWith body body) ∧
      announcedValueLen (storedWith body damaged ++ rest) =
        announcedValueLen (storedWith body body) := by
  obtain ⟨hkey, hvalue⟩ := announced_append (Nat.le_of_eq h.size_self) rest
  exact ⟨hkey.trans h.keyLen, hvalue.trans h.valueLen⟩

theorem BodyBurst.size :
    announcedSize (storedWith body damaged ++ rest) = (storedWith body damaged).length := by
  obtain ⟨hkey, hvalue⟩ := h.announced rest
  rw [← h.size_self, announcedSize, announcedSize, hkey, hvalue, h.keyLen, h.valueLen]

theorem BodyBurst.size_le : announcedSize (storedWith body damaged ++ rest) ≤
    (storedWith body damaged ++ rest).length := by
  rw [h.size, List.length_append]
  exact Nat.le_add_right _ _

/-- The stored CRC is wrong for the damaged body. -/
theorem BodyBurst.crcMismatch : CrcMismatch (storedWith body damaged ++ rest) := by
  unfold CrcMismatch
  rw [h.size, storedWith_body, storedWith_crc, Ne, UInt32.toNat_inj]
  exact crc32_ne_of_burst h.sameLength h.differs h.burst

/-- The reader neither accepts the damaged record nor takes it for a torn tail. -/
theorem BodyBurst.rejected :
    ∃ why, readNextWalRecord (storedWith body damaged ++ rest) = .error (corruptRecord why) := by
  have hfits := h.size_le rest
  cases hread : readNextWalRecord (storedWith body damaged ++ rest) with
  | error status =>
    obtain ⟨why, rfl⟩ := readNextWalRecord_error hread
    exact ⟨why, rfl⟩
  | ok found =>
    cases found with
    | none =>
      have hheader : kFixedHeaderSize ≤ (storedWith body damaged ++ rest).length := by
        refine Nat.le_trans ?_ hfits
        rw [announcedSize]
        omega
      obtain ⟨_, hpast | ⟨_, hpast⟩⟩ := (readNextWalRecord_none hheader).mp hread
      · rw [announcedSize] at hfits
        omega
      · omega
    | some found => exact absurd (h.crcMismatch rest) (not_crcMismatch_of_read hread).2

end Body

/-- **CRC-32 detects every burst of up to four bytes**: it differs between any two strings of one
length that differ only within four consecutive bytes, and so `ReadNextWalRecord` rejects every
record whose body was damaged only there, with the length fields intact.  The error names the CRC
unless a length field was out of range from the start. -/
theorem crc_detects_bursts :
    (∀ a b : Bytes, a.length = b.length → a ≠ b → Burst 4 a b → crc32 a ≠ crc32 b) ∧
      ∀ body damaged rest : Bytes, BodyBurst body damaged →
        (∃ why, readNextWalRecord (storedWith body damaged ++ rest) =
          .error (corruptRecord why)) ∧
        (announcedKeyLen (storedWith body body) ≤ kMaxFieldSize →
          announcedValueLen (storedWith body body) ≤ kMaxFieldSize →
          readNextWalRecord (storedWith body damaged ++ rest) =
            .error (corruptRecord "CRC mismatch")) := by
  refine ⟨fun a b hlen hne hburst => crc32_ne_of_burst hlen hne hburst, ?_⟩
  intro body damaged rest h
  refine ⟨h.rejected rest, fun hkey hvalue => ?_⟩
  obtain ⟨hkeyEq, hvalueEq⟩ := h.announced rest
  rw [← hkeyEq] at hkey
  rw [← hvalueEq] at hvalue
  exact readNextWalRecord_mismatch hkey hvalue (h.size_le rest) (h.crcMismatch rest)

/-- All four low bytes of a record's term are flipped. -/
theorem crc_detects_flipped_term :
    crc32 (WalRecord.body ⟨0xFFFFFFFF, 1, .kSet, [107, 49], [118, 49]⟩) ≠
        crc32 (WalRecord.body ⟨0, 1, .kSet, [107, 49], [118, 49]⟩) ∧
      readNextWalRecord (storedWith (WalRecord.body ⟨0, 1, .kSet, [107, 49], [118, 49]⟩)
          (WalRecord.body ⟨0xFFFFFFFF, 1, .kSet, [107, 49], [118, 49]⟩) ++ []) =
        .error (corruptRecord "CRC mismatch") := by
  have hburst : Burst 4 (WalRecord.body ⟨0xFFFFFFFF, 1, .kSet, [107, 49], [118, 49]⟩)
      (WalRecord.body ⟨0, 1, .kSet, [107, 49], [118, 49]⟩) := by
    have hwindow : ∀ j < 29,
        (WalRecord.body ⟨0xFFFFFFFF, 1, .kSet, [107, 49], [118, 49]⟩)[j]? ≠
          (WalRecord.body ⟨0, 1, .kSet, [107, 49], [118, 49]⟩)[j]? → 4 ≤ j ∧ j < 4 + 4 := by
      decide +kernel
    refine ⟨4, fun j hj => ?_⟩
    by_cases hin : j < 29
    · exact hwindow j hin hj
    · have hout := Nat.le_of_not_lt hin
      rw [List.getElem?_eq_none hout, List.getElem?_eq_none hout] at hj
      exact absurd rfl hj
  refine ⟨crc_detects_bursts.1 _ _ (by decide) (by decide) hburst, ?_⟩
  refine (crc_detects_bursts.2 _ _ []
    ⟨complete_encode (by decide), by decide, by decide, hburst, ?_, ?_⟩).2 ?_ ?_
  all_goals decide +kernel

/-! ## Recovery -/

/-- **Recovery stops at a record with a burst in its body**: it replays the records before it and
returns an I/O error. -/
theorem recovery_reports_burst {before : List WalRecord} (hbefore : ∀ r ∈ before, r.Encodable)
    {body damaged : Bytes} (h : BodyBurst body damaged) (rest : Bytes) (hash : Bytes → Nat) :
    ∃ why, recoverFromWal hash
        (encodeAll encodeWalRecord before ++ (storedWith body damaged ++ rest)) =
      (corruptRecord why, replay (ShardedKV.empty hash) before, lastIndexOf before) := by
  obtain ⟨why, hread⟩ := h.rejected rest
  refine ⟨why, ?_⟩
  unfold recoverFromWal scanWal
  rw [scan_refused walReads hread before hbefore]
  rfl

end NeuralKV
