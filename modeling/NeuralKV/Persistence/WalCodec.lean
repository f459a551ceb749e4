import NeuralKV.Lib.Framing
import NeuralKV.Persistence.WalRecord

/-!
# The byte format of the WAL

Model of `src/persistence/crc32.cpp` and of `EncodeWalRecord` and `ReadNextWalRecord` of
`src/persistence/wal_record.cpp`.  A file offset is the list of the bytes from there to the end
of the file; `read` never fails.

* `encodeWalRecord`, `readNextWalRecord`, `scanWal` — writer, reader, and the loop around the
  reader that `RecoverFromWal`, `WalWriter::OpenOrCreate` and `Log::Load` share.
* `readNextWalRecord_complete`, `readNextWalRecord_torn` — the reader on a complete record and on
  a proper beginning of one, in terms of the two length fields alone.
* `walReads` — the reader reads what the writer writes, as `Framing.Reads`; `scanWal_frames` is
  the scan of a file that ends in a torn record.
-/

set_option autoImplicit false

namespace NeuralKV

open Framing

/-! ## CRC-32 -/

/-- One round of the inner loop of `Crc32`. -/
def crcBit (crc : UInt32) : UInt32 :=
  if crc &&& 1 ≠ 0 then (crc >>> 1) ^^^ 0xEDB88320 else crc >>> 1

/-- One round of the outer loop of `Crc32`. -/
def crcByte (crc : UInt32) (byte : UInt8) : UInt32 := crcBit^[8] (crc ^^^ byte.toUInt32)

/-- `Crc32`. -/
def crc32 (data : Bytes) : UInt32 := ~~~(data.foldl crcByte 0xFFFFFFFF)

/-! ## Writer -/

/-- `static_cast<uint8_t>(op)`. -/
def WalOp.toByte : WalOp → UInt8
  | .kSet => 1
  | .kDelete => 2

/-- The values `ReadNextWalRecord` accepts as an op. -/
def WalOp.ofByte (byte : UInt8) : Option WalOp :=
  if byte = 1 then some .kSet else if byte = 2 then some .kDelete else none

@[simp] theorem WalOp.ofByte_toByte (op : WalOp) : WalOp.ofByte op.toByte = some op := by
  cases op <;> rfl

theorem WalOp.ofByte_eq_some {byte : UInt8} {op : WalOp} :
    WalOp.ofByte byte = some op ↔ byte = op.toByte := by
  constructor
  · intro h
    unfold WalOp.ofByte at h
    split at h
    · cases h
      assumption
    · split at h
      · cases h
        assumption
      · cases h
  · rintro rfl
    exact WalOp.ofByte_toByte op

/-- What the CRC of a record covers. -/
def WalRecord.body (r : WalRecord) : Bytes :=
  toBE 8 r.term ++ toBE 8 r.index ++ [r.op.toByte] ++ toBE 4 r.key.length ++ r.key ++
    toBE 4 r.value.length ++ r.value

/-- `EncodeWalRecord`. -/
def encodeWalRecord (r : WalRecord) : Bytes := toBE 4 (crc32 r.body).toNat ++ r.body

/-! ## Reader -/

/-- `crc(4) + term(8) + index(8) + op(1) + key_len(4)`. -/
def kFixedHeaderSize : Nat := 25

/-- `CorruptRecord`. -/
def corruptRecord (why : String) : Status := ⟨.kIOError, "wal record corrupt: " ++ why⟩

/-- The last part of `ReadNextWalRecord`: the checks on a record that is all there. -/
def checkRecord (header key valueLenBuf value : Bytes) : Except Status WalRecord :=
  if (crc32 (header.drop 4 ++ key ++ valueLenBuf ++ value)).toNat ≠ ofBE (header.take 4) then
    .error (corruptRecord "CRC mismatch")
  else
    match (header.drop 20).head?.bind WalOp.ofByte with
    | none => .error (corruptRecord "unknown op")
    | some op =>
      if key = [] then .error (corruptRecord "empty key")
      else if op = .kSet ∧ value = [] then .error (corruptRecord "SET with empty value")
      else
        .ok
          { term := ofBE ((header.drop 4).take 8)
            index := ofBE ((header.drop 12).take 8)
            op := op
            key := key
            value := value }

/-- `ReadNextWalRecord`: the record and the bytes behind it, `none` for `has_record == false`. -/
def readNextWalRecord (bytes : Bytes) : Except Status (Option (WalRecord × Bytes)) :=
  let header := bytes.take kFixedHeaderSize
  let bytes := bytes.drop kFixedHeaderSize
  if header.length < kFixedHeaderSize then .ok none
  else
    let keyLen := ofBE ((header.drop 21).take 4)
    if kMaxFieldSize < keyLen then .error (corruptRecord "key length out of range")
    else
      let key := bytes.take keyLen
      let bytes := bytes.drop keyLen
      if key.length < keyLen then .ok none
      else
        let valueLenBuf := bytes.take 4
        let bytes := bytes.drop 4
        if valueLenBuf.length < 4 then .ok none
        else
          let valueLen := ofBE valueLenBuf
          if kMaxFieldSize < valueLen then .error (corruptRecord "value length out of range")
          else
            let value := bytes.take valueLen
            let bytes := bytes.drop valueLen
            if value.length < valueLen then .ok none
            else
              match checkRecord header key valueLenBuf value with
              | .error status => .error status
              | .ok record => .ok (some (record, bytes))

/-- The loop `while (true) { ReadNextWalRecord(...) }` from the start of the file. -/
def scanWal (file : Bytes) : Scan UInt8 WalRecord Status := scan readNextWalRecord file.length file

theorem checkRecord_error {header key valueLenBuf value : Bytes} {status : Status}
    (h : checkRecord header key valueLenBuf value = .error status) :
    ∃ why, status = corruptRecord why := by
  unfold checkRecord at h
  split at h
  · cases h; exact ⟨_, rfl⟩
  · split at h
    · cases h; exact ⟨_, rfl⟩
    · split at h
      · cases h; exact ⟨_, rfl⟩
      · split at h
        · cases h; exact ⟨_, rfl⟩
        · cases h

theorem readNextWalRecord_error {bytes : Bytes} {status : Status}
    (h : readNextWalRecord bytes = .error status) : ∃ why, status = corruptRecord why := by
  unfold readNextWalRecord at h
  simp only at h
  split at h
  · cases h
  · split at h
    · cases h; exact ⟨_, rfl⟩
    · split at h
      · cases h
      · split at h
        · cases h
        · split at h
          · cases h; exact ⟨_, rfl⟩
          · split at h
            · cases h
            · split at h
              · cases h
                exact checkRecord_error ‹_›
              · cases h

/-- A scan fails only at a corrupt record. -/
theorem scanWal_error {file : Bytes} {status : Status} (h : (scanWal file).error = some status) :
    status.ok = false := by
  obtain ⟨_, hread⟩ := scan_error h
  obtain ⟨why, rfl⟩ := readNextWalRecord_error hread
  rfl

/-! ## The reader on the parts of a record -/

/-- The four reads of `ReadNextWalRecord`, with the lengths the bytes themselves announce. -/
structure Parts (header key valueLenBuf value : Bytes) : Prop where
  headerRead : header.length = kFixedHeaderSize
  keyLen : ofBE ((header.drop 21).take 4) = key.length
  keyFits : key.length ≤ kMaxFieldSize
  valueLenRead : valueLenBuf.length = 4
  valueLen : ofBE valueLenBuf = value.length
  valueFits : value.length ≤ kMaxFieldSize

section Parts

variable {header key valueLenBuf value : Bytes}

/-- On a complete record everything depends on the final checks. -/
theorem readNextWalRecord_complete (P : Parts header key valueLenBuf value) (rest : Bytes) :
    readNextWalRecord (header ++ (key ++ (valueLenBuf ++ (value ++ rest)))) =
      match checkRecord header key valueLenBuf value with
      | .error status => .error status
      | .ok record => .ok (some (record, rest)) := by
  unfold readNextWalRecord
  simp only [List.take_left' P.headerRead, List.drop_left' P.headerRead]
  rw [if_neg (by rw [P.headerRead]; exact Nat.lt_irrefl _), P.keyLen,
    if_neg (Nat.not_lt.mpr P.keyFits)]
  simp only [List.take_left, List.drop_left]
  rw [if_neg (Nat.lt_irrefl _)]
  simp only [List.take_left' P.valueLenRead, List.drop_left' P.valueLenRead]
  rw [if_neg (by rw [P.valueLenRead]; exact Nat.lt_irrefl _), P.valueLen,
    if_neg (Nat.not_lt.mpr P.valueFits)]
  simp only [List.take_left, List.drop_left]
  rw [if_neg (Nat.lt_irrefl _)]

/-- `l ++ m` cut short of its end: the cut falls into `l`, or into `m` behind all of `l`. -/
theorem isPrefix_append_cases {t l m : Bytes} (h : t <+: l ++ m)
    (hlt : t.length < l.length + m.length) :
    t.length < l.length ∨ ∃ u, t = l ++ u ∧ u <+: m ∧ u.length < m.length := by
  by_cases hl : t.length < l.length
  · exact Or.inl hl
  · have htake : t.take l.length = l := by
      obtain ⟨x, hx⟩ := h
      have := congrArg (List.take l.length) hx
      rw [List.take_append_of_le_length (by omega), List.take_left] at this
      exact this
    obtain ⟨u, rfl⟩ : l <+: t := htake ▸ List.take_prefix l.length t
    refine Or.inr ⟨u, rfl, (List.prefix_append_right_inj l).mp h, ?_⟩
    rw [List.length_append] at hlt
    omega

/-- **A proper beginning of a record is a torn tail**, wherever it ends. -/
theorem readNextWalRecord_torn (P : Parts header key valueLenBuf value) {t : Bytes}
    (ht : t <+: header ++ (key ++ (valueLenBuf ++ value)))
    (hlt : t.length < (header ++ (key ++ (valueLenBuf ++ value))).length) :
    readNextWalRecord t = .ok none := by
  unfold readNextWalRecord
  simp only [List.length_append] at hlt
  rcases isPrefix_append_cases ht (by simpa using hlt) with h₁ | ⟨u, rfl, hu, hult⟩
  · simp only [List.length_take]
    rw [if_pos (by rw [← P.headerRead]; omega)]
  · simp only [List.take_left' P.headerRead, List.drop_left' P.headerRead]
    rw [if_neg (by rw [P.headerRead]; exact Nat.lt_irrefl _), P.keyLen,
      if_neg (Nat.not_lt.mpr P.keyFits)]
    rcases isPrefix_append_cases hu (by simpa using hult) with h₂ | ⟨v, rfl, hv, hvlt⟩
    · rw [if_pos (by rw [List.length_take]; omega)]
    · simp only [List.take_left, List.drop_left]
      rw [if_neg (Nat.lt_irrefl _)]
      rcases isPrefix_append_cases hv (by simpa using hvlt) with h₃ | ⟨w, rfl, hw, hwlt⟩
      · rw [if_pos (by rw [List.length_take, ← P.valueLenRead]; omega)]
      · simp only [List.take_left' P.valueLenRead, List.drop_left' P.valueLenRead]
        rw [if_neg (by rw [P.valueLenRead]; exact Nat.lt_irrefl _), P.valueLen,
          if_neg (Nat.not_lt.mpr P.valueFits), if_pos (by rw [List.length_take]; omega)]

end Parts

/-! ## Round trip -/

/-- A record that survives encoding: the reader's field checks hold and the counters fit. -/
structure WalRecord.Encodable (r : WalRecord) : Prop where
  readable : r.readable = true
  term : r.term < 2 ^ 64
  index : r.index < 2 ^ 64

instance (r : WalRecord) : Decidable r.Encodable :=
  decidable_of_iff (r.readable = true ∧ r.term < 2 ^ 64 ∧ r.index < 2 ^ 64)
    ⟨fun h => ⟨h.1, h.2.1, h.2.2⟩, fun h => ⟨h.readable, h.term, h.index⟩⟩

namespace WalRecord

/-- The first `kFixedHeaderSize` bytes of an encoded record. -/
def header (r : WalRecord) : Bytes :=
  toBE 4 (crc32 r.body).toNat ++
    (toBE 8 r.term ++ (toBE 8 r.index ++ (r.op.toByte :: toBE 4 r.key.length)))

theorem encode_eq (r : WalRecord) :
    encodeWalRecord r = r.header ++ (r.key ++ (toBE 4 r.value.length ++ r.value)) := by
  simp [encodeWalRecord, body, header]

theorem encode_length (r : WalRecord) :
    (encodeWalRecord r).length = kFixedHeaderSize + r.key.length + 4 + r.value.length := by
  simp [encode_eq, header, kFixedHeaderSize]
  omega

theorem header_drop4 (r : WalRecord) :
    r.header.drop 4 = toBE 8 r.term ++ (toBE 8 r.index ++ (r.op.toByte :: toBE 4 r.key.length)) :=
  List.drop_left' (toBE_length _ _)

theorem header_drop12 (r : WalRecord) :
    r.header.drop 12 = toBE 8 r.index ++ (r.op.toByte :: toBE 4 r.key.length) := by
  rw [show 12 = 4 + 8 from rfl, ← List.drop_drop, header_drop4]
  exact List.drop_left' (toBE_length _ _)

theorem header_drop20 (r : WalRecord) :
    r.header.drop 20 = r.op.toByte :: toBE 4 r.key.length := by
  rw [show 20 = 12 + 8 from rfl, ← List.drop_drop, header_drop12]
  exact List.drop_left' (toBE_length _ _)

theorem header_drop21 (r : WalRecord) : r.header.drop 21 = toBE 4 r.key.length := by
  rw [show 21 = 20 + 1 from rfl, ← List.drop_drop, header_drop20]
  rfl

variable {r : WalRecord}

theorem Encodable.parts (h : r.Encodable) :
    Parts r.header r.key (toBE 4 r.value.length) r.value := by
  have hr := h.readable
  simp only [WalRecord.readable, Bool.and_eq_true, decide_eq_true_eq] at hr
  obtain ⟨⟨⟨hkey, hvalue⟩, _⟩, _⟩ := hr
  have fits : ∀ {n : Nat}, n ≤ kMaxFieldSize → n < 256 ^ 4 := by
    intro n hn
    exact Nat.lt_of_le_of_lt hn (by decide)
  refine ⟨?_, ?_, hkey, toBE_length _ _, ofBE_toBE_of_lt (fits hvalue), hvalue⟩
  · simp [header, kFixedHeaderSize]
  · rw [header_drop21, List.take_of_length_le (by simp)]
    exact ofBE_toBE_of_lt (fits hkey)

/-- **The checks accept a written record and return it field by field.** -/
theorem Encodable.check (h : r.Encodable) :
    checkRecord r.header r.key (toBE 4 r.value.length) r.value = .ok r := by
  have hr := h.readable
  simp only [WalRecord.readable, Bool.and_eq_true, decide_eq_true_eq] at hr
  obtain ⟨⟨_, hkey⟩, hvalue⟩ := hr
  have hbody : r.header.drop 4 ++ r.key ++ toBE 4 r.value.length ++ r.value = r.body := by
    rw [header_drop4]
    simp [body]
  have hcrc : ofBE (r.header.take 4) = (crc32 r.body).toNat := by
    rw [header, List.take_left' (toBE_length _ _)]
    exact ofBE_toBE_of_lt (UInt32.toNat_lt _)
  have hterm : ofBE ((r.header.drop 4).take 8) = r.term := by
    rw [header_drop4, List.take_left' (toBE_length _ _)]
    exact ofBE_toBE_of_lt h.term
  have hindex : ofBE ((r.header.drop 12).take 8) = r.index := by
    rw [header_drop12, List.take_left' (toBE_length _ _)]
    exact ofBE_toBE_of_lt h.index
  have hop : (r.header.drop 20).head?.bind WalOp.ofByte = some r.op := by
    rw [header_drop20]
    exact WalOp.ofByte_toByte r.op
  unfold checkRecord
  rw [hbody, hcrc, if_neg (by simp), hop, hterm, hindex]
  simp only
  rw [if_neg hkey, if_neg (fun hset => hvalue hset.1 hset.2)]

end WalRecord

/-- **The reader reads what the writer writes**, and takes a torn record for the end of the log. -/
theorem walReads : Reads WalRecord.Encodable encodeWalRecord readNextWalRecord where
  frame r rest h := by
    have hread := readNextWalRecord_complete h.parts rest
    rw [h.check] at hread
    rw [r.encode_eq, List.append_assoc, List.append_assoc, List.append_assoc]
    exact hread
  torn t ht := by
    rcases ht with rfl | ⟨r, hr, ht, hne⟩
    · rfl
    · rw [r.encode_eq] at ht hne
      refine readNextWalRecord_torn hr.parts ht ?_
      exact Nat.lt_of_le_of_ne ht.length_le fun hlen => hne (ht.eq_of_length hlen)
  nonempty r h := by
    have hlen := r.encode_length
    rw [h, List.length_nil, kFixedHeaderSize] at hlen
    omega

section Sound

variable {header key valueLenBuf value : Bytes}

theorem drop20_of_head {byte : UInt8} (h : (header.drop 20).head? = some byte) :
    header.drop 20 = byte :: header.drop 21 := by
  rw [show header.drop 21 = (header.drop 20).drop 1 by rw [List.drop_drop]]
  cases hd : header.drop 20 with
  | nil =>
    rw [hd] at h
    cases h
  | cons c rest =>
    rw [hd] at h
    cases h
    rfl

/-- The fields that are read off a complete record, written again. -/
theorem encode_read (P : Parts header key valueLenBuf value) {op : WalOp}
    (hop : header.drop 20 = op.toByte :: header.drop 21)
    (hcrc : (crc32 (header.drop 4 ++ key ++ valueLenBuf ++ value)).toNat = ofBE (header.take 4)) :
    encodeWalRecord
        { term := ofBE ((header.drop 4).take 8)
          index := ofBE ((header.drop 12).take 8)
          op := op
          key := key
          value := value } = header ++ (key ++ (valueLenBuf ++ value)) := by
  have hlen : header.length = 25 := P.headerRead
  have hterm : toBE 8 (ofBE ((header.drop 4).take 8)) = (header.drop 4).take 8 :=
    toBE_ofBE_of_length (by simp [hlen])
  have hindex : toBE 8 (ofBE ((header.drop 12).take 8)) = (header.drop 12).take 8 :=
    toBE_ofBE_of_length (by simp [hlen])
  have hkeyLen : toBE 4 key.length = header.drop 21 := by
    have hall : (header.drop 21).take 4 = header.drop 21 := List.take_of_length_le (by simp [hlen])
    rw [← P.keyLen, hall]
    exact toBE_ofBE_of_length (by simp [hlen])
  have hvalueLen : toBE 4 value.length = valueLenBuf := by
    rw [← P.valueLen]
    exact toBE_ofBE_of_length P.valueLenRead
  have hfields : (header.drop 4).take 8 ++ ((header.drop 12).take 8 ++ header.drop 20) =
      header.drop 4 := by
    rw [show header.drop 20 = (header.drop 12).drop 8 by rw [List.drop_drop], List.take_append_drop,
      show header.drop 12 = (header.drop 4).drop 8 by rw [List.drop_drop], List.take_append_drop]
  have hbody : WalRecord.body
      { term := ofBE ((header.drop 4).take 8), index := ofBE ((header.drop 12).take 8), op := op,
        key := key, value := value } = header.drop 4 ++ key ++ valueLenBuf ++ value := by
    simp only [WalRecord.body, hterm, hindex, hkeyLen, hvalueLen]
    conv_rhs => rw [← hfields, hop]
    simp
  rw [encodeWalRecord, hbody, hcrc, toBE_ofBE_of_length (by simp [hlen])]
  simp only [List.append_assoc]
  rw [← List.append_assoc, List.take_append_drop]

/-- The checks on a complete record, the other way round: what they return has these bytes. -/
theorem checkRecord_sound {r : WalRecord} (P : Parts header key valueLenBuf value)
    (h : checkRecord header key valueLenBuf value = .ok r) :
    r.Encodable ∧ encodeWalRecord r = header ++ (key ++ (valueLenBuf ++ value)) := by
  have hlen : header.length = 25 := P.headerRead
  unfold checkRecord at h
  split at h
  · cases h
  · rename_i hcrc
    split at h
    · cases h
    · rename_i op hop
      split at h
      · cases h
      · rename_i hkey
        split at h
        · cases h
        · rename_i hset
          cases h
          obtain ⟨byte, hbyte, hofByte⟩ := Option.bind_eq_some_iff.mp hop
          have hdrop := drop20_of_head hbyte
          rw [WalOp.ofByte_eq_some.mp hofByte] at hdrop
          refine ⟨⟨?_, ?_, ?_⟩, encode_read P hdrop (not_not.mp hcrc)⟩
          · simp only [WalRecord.readable, Bool.and_eq_true, decide_eq_true_eq]
            exact ⟨⟨⟨P.keyFits, P.valueFits⟩, hkey⟩, fun hop hvalue => hset ⟨hop, hvalue⟩⟩
          · have hterm := ofBE_lt ((header.drop 4).take 8)
            simpa [hlen] using hterm
          · have hindex := ofBE_lt ((header.drop 12).take 8)
            simpa [hlen] using hindex

end Sound

/-- **The reader returns only what the writer writes.** -/
theorem readNextWalRecord_sound {bytes rest : Bytes} {r : WalRecord}
    (h : readNextWalRecord bytes = .ok (some (r, rest))) :
    r.Encodable ∧ bytes = encodeWalRecord r ++ rest := by
  unfold readNextWalRecord at h
  simp only at h
  split at h
  · cases h
  · rename_i hheader
    split at h
    · cases h
    · rename_i hkeyMax
      split at h
      · cases h
      · rename_i hkey
        split at h
        · cases h
        · rename_i hvalueLen
          split at h
          · cases h
          · rename_i hvalueMax
            split at h
            · cases h
            · rename_i hvalue
              split at h
              · cases h
              · rename_i record hcheck
                cases h
                have hkeyLen := Nat.le_antisymm (List.length_take_le _ _) (Nat.le_of_not_lt hkey)
                have hvalLen := Nat.le_antisymm (List.length_take_le _ _) (Nat.le_of_not_lt hvalue)
                obtain ⟨hr, hencode⟩ := checkRecord_sound
                  ⟨Nat.le_antisymm (List.length_take_le _ _) (Nat.le_of_not_lt hheader),
                    hkeyLen.symm, Nat.le_trans (Nat.le_of_eq hkeyLen) (Nat.le_of_not_lt hkeyMax),
                    Nat.le_antisymm (List.length_take_le _ _) (Nat.le_of_not_lt hvalueLen),
                    hvalLen.symm, Nat.le_trans (Nat.le_of_eq hvalLen) (Nat.le_of_not_lt hvalueMax)⟩
                  hcheck
                refine ⟨hr, ?_⟩
                rw [hencode]
                simp only [List.append_assoc, List.take_append_drop]

/-- A file is the encoding of the records a scan returns, and what the scan leaves unread. -/
theorem scanWal_sound (file : Bytes) :
    (∀ r ∈ (scanWal file).frames, r.Encodable) ∧
      file = encodeAll encodeWalRecord (scanWal file).frames ++ (scanWal file).tail :=
  scan_sound readNextWalRecord_sound file.length file

/-- A scan begins with given records exactly if the file does. -/
theorem isPrefix_scanWal_iff {rs : List WalRecord} (hrs : ∀ r ∈ rs, r.Encodable) (file : Bytes) :
    rs <+: (scanWal file).frames ↔ encodeAll encodeWalRecord rs <+: file :=
  isPrefix_scan_iff walReads readNextWalRecord_sound rs hrs file

/-- **A file of whole records and a torn one is read without error, record for record.** -/
theorem scanWal_frames {rs : List WalRecord} (hrs : ∀ r ∈ rs, r.Encodable) {t : Bytes}
    (ht : Torn WalRecord.Encodable encodeWalRecord t) :
    scanWal (encodeAll encodeWalRecord rs ++ t) = ⟨rs, t, none⟩ :=
  scan_frames walReads ht rs hrs _ (length_le_stream walReads rs t)

end NeuralKV
