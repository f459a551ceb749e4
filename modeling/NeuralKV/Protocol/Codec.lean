import NeuralKV.Lib.Fields
import NeuralKV.Protocol.Types

/-!
# The wire codec

Model of `src/protocol/codec.cpp`: the four encoders, the four decoders and `TryParseFrame`.

* `encodeFrame` — what the encoders have in common; each encoder applies it to its own payload.
* `decodeClientRequest`, … — the decoders, check by check.
* `tryParseFrame` — the result and the buffer afterwards.
* `Verdict` — everything `TryParseFrame` can find at the front of a buffer.
* `tryParseFrame_complete_iff` — **the parser accepts exactly the encoders' images**.
* `tryParseFrame_complete_append`, `tryParseFrame_error_append` — a verdict other than `kNeedMore`
  does not depend on what follows.
-/

set_option autoImplicit false

namespace NeuralKV

namespace Protocol

open Framing Fields

/-- `Status::Error(ErrorCode::kInvalidArgument, message)`. -/
def invalidArgument (message : String) : Status := ⟨.kInvalidArgument, message⟩

/-- `TruncatedPayload`. -/
def truncatedPayload : Status := invalidArgument "truncated payload"

/-! ## Encoders -/

/-- The eight bytes in front of a payload. -/
def header (magic : Nat) (version type : UInt8) (length : Nat) : Bytes :=
  toBE 2 magic ++ [version, type] ++ toBE 4 length

/-- The last part of every encoder: the size cap, the header and the payload. -/
def encodeFrame (type : MessageType) (payloadSize : Nat) (payload : Bytes) :
    Except Status Bytes := do
  require (invalidArgument "payload exceeds max size") (payloadSize ≤ kMaxPayloadSize)
  return header kMagic kProtocolVersion type.toByte payloadSize ++ payload

/-- The `switch` on the opcode that `EncodeClientRequest` and `DecodeClientRequest` share. -/
def checkValue (value : Bytes) : Opcode → Except Status Unit
  | .kSet => require (invalidArgument "SET requires a non-empty value") (value ≠ [])
  | .kGet | .kDelete => require (invalidArgument "GET/DELETE must not carry a value") (value = [])

def ClientRequest.payload (req : ClientRequest) : Bytes :=
  toBE 8 req.requestId.toNat ++ [req.opcode.toByte] ++ toBE 4 req.key.length ++ req.key ++
    toBE 4 req.value.length ++ req.value

/-- `EncodeClientRequest`. -/
def encodeClientRequest (req : ClientRequest) : Except Status Bytes := do
  require (invalidArgument "key must not be empty") (req.key ≠ [])
  checkValue req.value req.opcode
  encodeFrame .kClientRequest (8 + 1 + 4 + req.key.length + 4 + req.value.length) req.payload

def ClientResponse.payload (resp : ClientResponse) : Bytes :=
  toBE 8 resp.requestId.toNat ++ toBE 2 resp.status.toCode ++ toBE 4 resp.value.length ++
    resp.value ++ toBE 4 resp.leaderHint.toNat

/-- `EncodeClientResponse`. -/
def encodeClientResponse (resp : ClientResponse) : Except Status Bytes :=
  encodeFrame .kClientResponse (8 + 2 + 4 + resp.value.length + 4) resp.payload

def ClusterRequest.payload (req : ClusterRequest) : Bytes :=
  toBE 8 req.requestId.toNat ++ [req.opcode.toByte] ++ toBE 4 req.body.length ++ req.body

/-- `EncodeClusterRequest`. -/
def encodeClusterRequest (req : ClusterRequest) : Except Status Bytes :=
  encodeFrame .kClusterRequest (8 + 1 + 4 + req.body.length) req.payload

def ClusterResponse.payload (resp : ClusterResponse) : Bytes :=
  toBE 8 resp.requestId.toNat ++ toBE 2 resp.status.toCode ++ toBE 4 resp.body.length ++ resp.body

/-- `EncodeClusterResponse`. -/
def encodeClusterResponse (resp : ClusterResponse) : Except Status Bytes :=
  encodeFrame .kClusterResponse (8 + 2 + 4 + resp.body.length) resp.payload

/-- The encoder of the message's type. -/
def Message.encode : Message → Except Status Bytes
  | .clientRequest req => encodeClientRequest req
  | .clientResponse resp => encodeClientResponse resp
  | .clusterRequest req => encodeClusterRequest req
  | .clusterResponse resp => encodeClusterResponse resp

/-! ## Decoders -/

/-- `offset != payload.size()`. -/
def atEnd (rest : Bytes) : Except Status Unit :=
  require (invalidArgument "trailing bytes after payload") (rest = [])

/-- `DecodeClientRequest`. -/
def decodeClientRequest (payload : Bytes) : Except Status ClientRequest := do
  let (requestId, rest) ← number truncatedPayload 8 payload
  let (opcodeByte, rest) ← byte truncatedPayload rest
  let opcode ← known (invalidArgument "unknown opcode") Opcode.ofByte opcodeByte
  let (keyLen, rest) ← number truncatedPayload 4 rest
  require (invalidArgument "key must not be empty") (keyLen ≠ 0)
  let (key, rest) ← take truncatedPayload keyLen rest
  let (value, rest) ← block truncatedPayload 4 rest
  atEnd rest
  checkValue value opcode
  return { requestId := .ofNat requestId, opcode, key, value }

/-- `DecodeClientResponse`. -/
def decodeClientResponse (payload : Bytes) : Except Status ClientResponse := do
  let (requestId, rest) ← number truncatedPayload 8 payload
  let (statusCode, rest) ← number truncatedPayload 2 rest
  let status ← known (invalidArgument "unknown response status") ResponseStatus.ofCode statusCode
  let (value, rest) ← block truncatedPayload 4 rest
  let (leaderHint, rest) ← number truncatedPayload 4 rest
  atEnd rest
  return { requestId := .ofNat requestId, status, value, leaderHint := .ofNat leaderHint }

/-- `DecodeClusterRequest`. -/
def decodeClusterRequest (payload : Bytes) : Except Status ClusterRequest := do
  let (requestId, rest) ← number truncatedPayload 8 payload
  let (opcodeByte, rest) ← byte truncatedPayload rest
  let opcode ← known (invalidArgument "unknown cluster opcode") ClusterOpcode.ofByte opcodeByte
  let (body, rest) ← block truncatedPayload 4 rest
  atEnd rest
  return { requestId := .ofNat requestId, opcode, body }

/-- `DecodeClusterResponse`. -/
def decodeClusterResponse (payload : Bytes) : Except Status ClusterResponse := do
  let (requestId, rest) ← number truncatedPayload 8 payload
  let (statusCode, rest) ← number truncatedPayload 2 rest
  let status ← known (invalidArgument "unknown response status") ResponseStatus.ofCode statusCode
  let (body, rest) ← block truncatedPayload 4 rest
  atEnd rest
  return { requestId := .ofNat requestId, status, body }

/-- The `switch` of `TryParseFrame`; the status of a decoder that fails is dropped there. -/
def decodeMessage (typeByte : UInt8) (payload : Bytes) : Option Message :=
  match MessageType.ofByte typeByte with
  | some .kClientRequest => (decodeClientRequest payload).toOption.map .clientRequest
  | some .kClientResponse => (decodeClientResponse payload).toOption.map .clientResponse
  | some .kClusterRequest => (decodeClusterRequest payload).toOption.map .clusterRequest
  | some .kClusterResponse => (decodeClusterResponse payload).toOption.map .clusterResponse
  | none => none

/-- `TryParseFrame`: the result and the buffer afterwards. -/
def tryParseFrame (buffer : Bytes) : ParseResult × Bytes :=
  if buffer.length < kFrameHeaderSize then (.kNeedMore, buffer)
  else if ofBE (buffer.take 2) ≠ kMagic then (.kError, [])
  else if buffer.getD 2 0 ≠ kProtocolVersion then (.kError, [])
  else
    let typeByte := buffer.getD 3 0
    let length := ofBE ((buffer.drop 4).take 4)
    if kMaxPayloadSize < length then (.kError, [])
    else
      let frameSize := kFrameHeaderSize + length
      if buffer.length < frameSize then (.kNeedMore, buffer)
      else
        match decodeMessage typeByte ((buffer.drop kFrameHeaderSize).take length) with
        | none => (.kError, [])
        | some message => (.kComplete message, buffer.drop frameSize)

/-! ## Payloads -/

@[simp] theorem ClientRequest.payload_length (req : ClientRequest) :
    req.payload.length = 8 + 1 + 4 + req.key.length + 4 + req.value.length := by
  simp [ClientRequest.payload]
  omega

@[simp] theorem ClientResponse.payload_length (resp : ClientResponse) :
    resp.payload.length = 8 + 2 + 4 + resp.value.length + 4 := by
  simp [ClientResponse.payload]
  omega

@[simp] theorem ClusterRequest.payload_length (req : ClusterRequest) :
    req.payload.length = 8 + 1 + 4 + req.body.length := by
  simp [ClusterRequest.payload]
  omega

@[simp] theorem ClusterResponse.payload_length (resp : ClusterResponse) :
    resp.payload.length = 8 + 2 + 4 + resp.body.length := by
  simp [ClusterResponse.payload]
  omega

section Decoders

variable {payload rest : Bytes}

theorem atEnd_ok {u : Unit} : atEnd rest = .ok u ↔ rest = [] := require_ok

/-- What `EncodeClientRequest` asks of a request besides its size. -/
def ClientRequest.Valid (req : ClientRequest) : Prop :=
  req.key ≠ [] ∧ checkValue req.value req.opcode = .ok ()

theorem decodeClientRequest_iff (hsize : payload.length ≤ kMaxPayloadSize) {req : ClientRequest} :
    decodeClientRequest payload = .ok req ↔ req.Valid ∧ payload = req.payload := by
  simp only [decodeClientRequest, bind_ok, Prod.exists, number_ok, byte_ok, known_ok,
    Opcode.ofByte_eq_some, require_ok, take_ok, block_ok, atEnd_ok]
  constructor
  · rintro ⟨id, _, ⟨hid, rfl⟩, _, _, rfl, opcode, rfl, _, _, ⟨_, rfl⟩, _, hkey, key, _, ⟨rfl, rfl⟩,
      value, _, ⟨_, rfl⟩, _, rfl, ⟨⟩, hvalue, hreq⟩
    cases hreq
    have hid : (UInt64.ofNat id).toNat = id := UInt64.toNat_ofNat_of_lt' hid
    refine ⟨⟨?_, hvalue⟩, ?_⟩
    · rintro rfl
      exact hkey rfl
    · simp [ClientRequest.payload, hid]
  · rintro ⟨⟨hkey, hvalue⟩, rfl⟩
    rw [ClientRequest.payload_length] at hsize
    unfold kMaxPayloadSize at hsize
    refine ⟨_, _, ⟨req.requestId.toNat_lt, ?_⟩, _, _, rfl, req.opcode, rfl, _, _, ⟨?_, rfl⟩, (), ?_,
      req.key, _, ⟨rfl, rfl⟩, req.value, [], ⟨?_, rfl⟩, (), rfl, (), hvalue, ?_⟩
    · simp [ClientRequest.payload]
    · omega
    · exact mt List.length_eq_zero_iff.mp hkey
    · omega
    · rw [UInt64.ofNat_toNat]
      rfl

theorem decodeClientResponse_iff (hsize : payload.length ≤ kMaxPayloadSize)
    {resp : ClientResponse} :
    decodeClientResponse payload = .ok resp ↔ payload = resp.payload := by
  simp only [decodeClientResponse, bind_ok, Prod.exists, number_ok, known_ok,
    ResponseStatus.ofCode_eq_some, block_ok, atEnd_ok]
  constructor
  · rintro ⟨id, _, ⟨hid, rfl⟩, _, _, ⟨_, rfl⟩, status, rfl, value, _, ⟨_, rfl⟩, hint, _,
      ⟨hhint, rfl⟩, _, rfl, hresp⟩
    cases hresp
    have hid : (UInt64.ofNat id).toNat = id := UInt64.toNat_ofNat_of_lt' hid
    have hhint : (UInt32.ofNat hint).toNat = hint := UInt32.toNat_ofNat_of_lt' hhint
    simp [ClientResponse.payload, hid, hhint]
  · rintro rfl
    rw [ClientResponse.payload_length] at hsize
    unfold kMaxPayloadSize at hsize
    refine ⟨_, _, ⟨resp.requestId.toNat_lt, ?_⟩, _, _, ⟨resp.status.toCode_lt, rfl⟩, resp.status,
      rfl, resp.value, _, ⟨?_, rfl⟩, _, [], ⟨resp.leaderHint.toNat_lt, rfl⟩, (), rfl, ?_⟩
    · simp [ClientResponse.payload]
    · omega
    · rw [UInt64.ofNat_toNat, UInt32.ofNat_toNat]
      rfl

theorem decodeClusterRequest_iff (hsize : payload.length ≤ kMaxPayloadSize)
    {req : ClusterRequest} :
    decodeClusterRequest payload = .ok req ↔ payload = req.payload := by
  simp only [decodeClusterRequest, bind_ok, Prod.exists, number_ok, byte_ok, known_ok,
    ClusterOpcode.ofByte_eq_some, block_ok, atEnd_ok]
  constructor
  · rintro ⟨id, _, ⟨hid, rfl⟩, _, _, rfl, opcode, rfl, body, _, ⟨_, rfl⟩, _, rfl, hreq⟩
    cases hreq
    have hid : (UInt64.ofNat id).toNat = id := UInt64.toNat_ofNat_of_lt' hid
    simp [ClusterRequest.payload, hid]
  · rintro rfl
    rw [ClusterRequest.payload_length] at hsize
    unfold kMaxPayloadSize at hsize
    refine ⟨_, _, ⟨req.requestId.toNat_lt, ?_⟩, _, _, rfl, req.opcode, rfl, req.body, [], ⟨?_, rfl⟩,
      (), rfl, ?_⟩
    · simp [ClusterRequest.payload]
    · omega
    · rw [UInt64.ofNat_toNat]
      rfl

theorem decodeClusterResponse_iff (hsize : payload.length ≤ kMaxPayloadSize)
    {resp : ClusterResponse} :
    decodeClusterResponse payload = .ok resp ↔ payload = resp.payload := by
  simp only [decodeClusterResponse, bind_ok, Prod.exists, number_ok, known_ok,
    ResponseStatus.ofCode_eq_some, block_ok, atEnd_ok]
  constructor
  · rintro ⟨id, _, ⟨hid, rfl⟩, _, _, ⟨_, rfl⟩, status, rfl, body, _, ⟨_, rfl⟩, _, rfl, hresp⟩
    cases hresp
    have hid : (UInt64.ofNat id).toNat = id := UInt64.toNat_ofNat_of_lt' hid
    simp [ClusterResponse.payload, hid]
  · rintro rfl
    rw [ClusterResponse.payload_length] at hsize
    unfold kMaxPayloadSize at hsize
    refine ⟨_, _, ⟨resp.requestId.toNat_lt, ?_⟩, _, _, ⟨resp.status.toCode_lt, rfl⟩, resp.status,
      rfl, resp.body, [], ⟨?_, rfl⟩, (), rfl, ?_⟩
    · simp [ClusterResponse.payload]
    · omega
    · rw [UInt64.ofNat_toNat]
      rfl

end Decoders

/-! ## Messages -/

namespace Message

def payload : Message → Bytes
  | .clientRequest req => req.payload
  | .clientResponse resp => resp.payload
  | .clusterRequest req => req.payload
  | .clusterResponse resp => resp.payload

/-- What the encoder of a message asks of it besides its size. -/
def Valid : Message → Prop
  | .clientRequest req => req.Valid
  | _ => True

end Message

theorem encodeFrame_ok {type : MessageType} {payloadSize : Nat} {payload e : Bytes} :
    encodeFrame type payloadSize payload = .ok e ↔
      payloadSize ≤ kMaxPayloadSize ∧
        e = header kMagic kProtocolVersion type.toByte payloadSize ++ payload := by
  simp only [encodeFrame, bind_ok, require_ok]
  constructor
  · rintro ⟨_, hsize, h⟩
    cases h
    exact ⟨hsize, rfl⟩
  · rintro ⟨hsize, rfl⟩
    exact ⟨(), hsize, rfl⟩

/-- **What the encoders write**, for the four of them at once. -/
theorem Message.encode_iff {m : Message} {e : Bytes} :
    m.encode = .ok e ↔ m.Valid ∧ m.payload.length ≤ kMaxPayloadSize ∧
      e = header kMagic kProtocolVersion m.type.toByte m.payload.length ++ m.payload := by
  cases m with
  | clientRequest req =>
    simp only [Message.encode, encodeClientRequest, bind_ok, require_ok, encodeFrame_ok,
      Message.Valid, ClientRequest.Valid, Message.payload, ClientRequest.payload_length,
      Message.type]
    constructor
    · rintro ⟨_, hkey, ⟨⟩, hvalue, hsize, rfl⟩
      exact ⟨⟨hkey, hvalue⟩, hsize, rfl⟩
    · rintro ⟨⟨hkey, hvalue⟩, hsize, rfl⟩
      exact ⟨(), hkey, (), hvalue, hsize, rfl⟩
  | clientResponse resp =>
    simp only [Message.encode, encodeClientResponse, encodeFrame_ok, Message.Valid,
      Message.payload, ClientResponse.payload_length, Message.type, true_and]
  | clusterRequest req =>
    simp only [Message.encode, encodeClusterRequest, encodeFrame_ok, Message.Valid,
      Message.payload, ClusterRequest.payload_length, Message.type, true_and]
  | clusterResponse resp =>
    simp only [Message.encode, encodeClusterResponse, encodeFrame_ok, Message.Valid,
      Message.payload, ClusterResponse.payload_length, Message.type, true_and]

theorem toOption_map_eq_some {A : Type} {x : Except Status A} {f : A → Message} {m : Message} :
    x.toOption.map f = some m ↔ ∃ a, x = .ok a ∧ f a = m := by
  cases x with
  | error e => simp [Except.toOption]
  | ok a => simp [Except.toOption]

/-- **What the decoders accept**, for the four of them at once. -/
theorem decodeMessage_iff {typeByte : UInt8} {payload : Bytes} {m : Message}
    (hsize : payload.length ≤ kMaxPayloadSize) :
    decodeMessage typeByte payload = some m ↔
      m.Valid ∧ typeByte = m.type.toByte ∧ payload = m.payload := by
  constructor
  · intro h
    unfold decodeMessage at h
    split at h
    · obtain ⟨req, hreq, rfl⟩ := toOption_map_eq_some.mp h
      obtain ⟨hvalid, hpayload⟩ := (decodeClientRequest_iff hsize).mp hreq
      exact ⟨hvalid, MessageType.ofByte_eq_some.mp ‹_›, hpayload⟩
    · obtain ⟨resp, hresp, rfl⟩ := toOption_map_eq_some.mp h
      exact ⟨trivial, MessageType.ofByte_eq_some.mp ‹_›, (decodeClientResponse_iff hsize).mp hresp⟩
    · obtain ⟨req, hreq, rfl⟩ := toOption_map_eq_some.mp h
      exact ⟨trivial, MessageType.ofByte_eq_some.mp ‹_›, (decodeClusterRequest_iff hsize).mp hreq⟩
    · obtain ⟨resp, hresp, rfl⟩ := toOption_map_eq_some.mp h
      exact ⟨trivial, MessageType.ofByte_eq_some.mp ‹_›,
        (decodeClusterResponse_iff hsize).mp hresp⟩
    · cases h
  · rintro ⟨hvalid, rfl, rfl⟩
    unfold decodeMessage
    rw [MessageType.ofByte_eq_some.mpr rfl]
    cases m with
    | clientRequest req =>
      exact toOption_map_eq_some.mpr ⟨req, (decodeClientRequest_iff hsize).mpr ⟨hvalid, rfl⟩, rfl⟩
    | clientResponse resp =>
      exact toOption_map_eq_some.mpr ⟨resp, (decodeClientResponse_iff hsize).mpr rfl, rfl⟩
    | clusterRequest req =>
      exact toOption_map_eq_some.mpr ⟨req, (decodeClusterRequest_iff hsize).mpr rfl, rfl⟩
    | clusterResponse resp =>
      exact toOption_map_eq_some.mpr ⟨resp, (decodeClusterResponse_iff hsize).mpr rfl, rfl⟩

/-! ## The parser -/

@[simp] theorem header_length (magic : Nat) (version type : UInt8) (length : Nat) :
    (header magic version type length).length = kFrameHeaderSize := by
  simp [header, kFrameHeaderSize]

/-- Eight bytes are a header. -/
theorem exists_header {buffer : Bytes} (h : kFrameHeaderSize ≤ buffer.length) :
    ∃ magic version type length rest, magic < 256 ^ 2 ∧ length < 256 ^ 4 ∧
      buffer = header magic version type length ++ rest := by
  match buffer, h with
  | a :: b :: version :: type :: c :: d :: e :: f :: rest, _ =>
    refine ⟨ofBE [a, b], version, type, ofBE [c, d, e, f], rest, ofBE_lt [a, b],
      ofBE_lt [c, d, e, f], ?_⟩
    have hmagic : toBE 2 (ofBE [a, b]) = [a, b] := toBE_ofBE [a, b]
    have hlength : toBE 4 (ofBE [c, d, e, f]) = [c, d, e, f] := toBE_ofBE [c, d, e, f]
    rw [header, hmagic, hlength]
    rfl

/-- `TryParseFrame` in terms of the fields of the header. -/
theorem tryParseFrame_header {magic length : Nat} (hmagic : magic < 256 ^ 2)
    (hlength : length < 256 ^ 4) (version type : UInt8) (rest : Bytes) :
    tryParseFrame (header magic version type length ++ rest) =
      if magic ≠ kMagic then (.kError, [])
      else if version ≠ kProtocolVersion then (.kError, [])
      else if kMaxPayloadSize < length then (.kError, [])
      else if rest.length < length then
        (.kNeedMore, header magic version type length ++ rest)
      else
        match decodeMessage type (rest.take length) with
        | none => (.kError, [])
        | some message => (.kComplete message, rest.drop length) := by
  have hlen : (header magic version type length ++ rest).length =
      kFrameHeaderSize + rest.length := by
    rw [List.length_append, header_length]
  have hread₁ : (header magic version type length ++ rest).take 2 = toBE 2 magic := rfl
  have hread₂ : (header magic version type length ++ rest).getD 2 0 = version := rfl
  have hread₃ : (header magic version type length ++ rest).getD 3 0 = type := rfl
  have hread₄ : ((header magic version type length ++ rest).drop 4).take 4 = toBE 4 length := rfl
  have hrest : (header magic version type length ++ rest).drop kFrameHeaderSize = rest := rfl
  unfold tryParseFrame
  simp only [hlen, hread₁, hread₂, hread₃, hread₄, ofBE_toBE_of_lt hmagic,
    ofBE_toBE_of_lt hlength, ← List.drop_drop, hrest, Nat.add_lt_add_iff_left]
  rw [if_neg (by omega)]

/-- What `TryParseFrame` can find at the front of a buffer, with its result. -/
inductive Verdict : Bytes → ParseResult × Bytes → Prop where
  | short {buffer : Bytes} (h : buffer.length < kFrameHeaderSize) :
    Verdict buffer (.kNeedMore, buffer)
  | badHeader {magic length : Nat} {version type : UInt8} (rest : Bytes) (hmagic : magic < 256 ^ 2)
      (hlength : length < 256 ^ 4)
      (h : magic ≠ kMagic ∨ version ≠ kProtocolVersion ∨ kMaxPayloadSize < length) :
    Verdict (header magic version type length ++ rest) (.kError, [])
  | cut {type : UInt8} {length : Nat} {rest : Bytes} (hmax : length ≤ kMaxPayloadSize)
      (h : rest.length < length) :
    Verdict (header kMagic kProtocolVersion type length ++ rest)
      (.kNeedMore, header kMagic kProtocolVersion type length ++ rest)
  | badPayload {type : UInt8} {payload : Bytes} (rest : Bytes)
      (hmax : payload.length ≤ kMaxPayloadSize) (h : decodeMessage type payload = none) :
    Verdict (header kMagic kProtocolVersion type payload.length ++ (payload ++ rest)) (.kError, [])
  | complete {type : UInt8} {payload : Bytes} {m : Message} (rest : Bytes)
      (hmax : payload.length ≤ kMaxPayloadSize) (h : decodeMessage type payload = some m) :
    Verdict (header kMagic kProtocolVersion type payload.length ++ (payload ++ rest))
      (.kComplete m, rest)

/-- **Every buffer gets one of the verdicts.** -/
theorem tryParseFrame_verdict (buffer : Bytes) : Verdict buffer (tryParseFrame buffer) := by
  by_cases hshort : buffer.length < kFrameHeaderSize
  · rw [tryParseFrame, if_pos hshort]
    exact .short hshort
  · obtain ⟨magic, version, type, length, rest, hmagic, hlength, rfl⟩ :=
      exists_header (Nat.le_of_not_lt hshort)
    rw [tryParseFrame_header hmagic hlength]
    split
    · exact .badHeader rest hmagic hlength (Or.inl ‹_›)
    · rename_i hm
      split
      · exact .badHeader rest hmagic hlength (Or.inr (Or.inl ‹_›))
      · rename_i hv
        split
        · exact .badHeader rest hmagic hlength (Or.inr (Or.inr ‹_›))
        · rename_i hmax
          rw [not_not.mp hm, not_not.mp hv]
          split
          · exact .cut (Nat.le_of_not_lt hmax) ‹_›
          · rename_i hall
            -- from here on the payload is there
            obtain ⟨payload, tail, rfl, rfl⟩ :
                ∃ payload tail, rest = payload ++ tail ∧ length = payload.length := by
              refine ⟨rest.take length, rest.drop length, (List.take_append_drop _ _).symm, ?_⟩
              rw [List.length_take]
              omega
            rw [List.take_left, List.drop_left]
            split
            · exact .badPayload tail (Nat.le_of_not_lt hmax) ‹_›
            · exact .complete tail (Nat.le_of_not_lt hmax) ‹_›

/-- A length below the cap fits its field. -/
theorem length_fits {length : Nat} (h : length ≤ kMaxPayloadSize) : length < 256 ^ 4 := by
  unfold kMaxPayloadSize at h
  omega

/-- The verdicts exclude each other. -/
theorem Verdict.eq {buffer : Bytes} {r : ParseResult × Bytes} (v : Verdict buffer r) :
    tryParseFrame buffer = r := by
  cases v with
  | short h => exact if_pos h
  | badHeader rest hmagic hlength h =>
    rw [tryParseFrame_header hmagic hlength]
    split
    · rfl
    · split
      · rfl
      · rename_i hm hv
        rw [if_pos ((h.resolve_left hm).resolve_left hv)]
  | cut hmax h =>
    rw [tryParseFrame_header (by decide) (length_fits hmax), if_neg (by simp), if_neg (by simp),
      if_neg (Nat.not_lt.mpr hmax), if_pos h]
  | badPayload rest hmax h =>
    rw [tryParseFrame_header (by decide) (length_fits hmax), if_neg (by simp), if_neg (by simp),
      if_neg (Nat.not_lt.mpr hmax), if_neg (by simp), List.take_left, h]
  | complete rest hmax h =>
    rw [tryParseFrame_header (by decide) (length_fits hmax), if_neg (by simp), if_neg (by simp),
      if_neg (Nat.not_lt.mpr hmax), if_neg (by simp), List.take_left, List.drop_left, h]

section Verdicts

variable {buffer rest : Bytes} {m : Message}

/-- What is accepted encodes to the bytes that were consumed. -/
theorem tryParseFrame_sound (h : tryParseFrame buffer = (.kComplete m, rest)) :
    ∃ e, m.encode = .ok e ∧ buffer = e ++ rest := by
  have v := tryParseFrame_verdict buffer
  rw [h] at v
  cases v with
  | complete _ hmax hdecode =>
    obtain ⟨hvalid, rfl, rfl⟩ := (decodeMessage_iff hmax).mp hdecode
    exact ⟨_, Message.encode_iff.mpr ⟨hvalid, hmax, rfl⟩, by rw [List.append_assoc]⟩

/-- What was encoded is accepted, whatever follows. -/
theorem tryParseFrame_encode {e : Bytes} (he : m.encode = .ok e) (rest : Bytes) :
    tryParseFrame (e ++ rest) = (.kComplete m, rest) := by
  obtain ⟨hvalid, hmax, rfl⟩ := Message.encode_iff.mp he
  rw [List.append_assoc]
  exact (Verdict.complete rest hmax ((decodeMessage_iff hmax).mpr ⟨hvalid, rfl, rfl⟩)).eq

theorem tryParseFrame_needMore (h : tryParseFrame buffer = (.kNeedMore, rest)) : rest = buffer := by
  have v := tryParseFrame_verdict buffer
  rw [h] at v
  cases v with
  | short _ => rfl
  | cut _ _ => rfl

theorem tryParseFrame_complete_append (h : tryParseFrame buffer = (.kComplete m, rest))
    (x : Bytes) : tryParseFrame (buffer ++ x) = (.kComplete m, rest ++ x) := by
  obtain ⟨e, he, rfl⟩ := tryParseFrame_sound h
  rw [List.append_assoc]
  exact tryParseFrame_encode he (rest ++ x)

theorem tryParseFrame_error_rest (h : tryParseFrame buffer = (.kError, rest)) : rest = [] := by
  have v := tryParseFrame_verdict buffer
  rw [h] at v
  cases v with
  | badHeader _ _ _ _ => rfl
  | badPayload _ _ _ => rfl

/-- An error is raised by bytes that are there, so it stays. -/
theorem tryParseFrame_error_append (h : tryParseFrame buffer = (.kError, rest)) (x : Bytes) :
    tryParseFrame (buffer ++ x) = (.kError, []) := by
  have v := tryParseFrame_verdict buffer
  rw [h] at v
  cases v with
  | badHeader tail hmagic hlength hbad =>
    rw [List.append_assoc]
    exact (Verdict.badHeader (tail ++ x) hmagic hlength hbad).eq
  | badPayload tail hmax hdecode =>
    rw [List.append_assoc, List.append_assoc]
    exact (Verdict.badPayload (tail ++ x) hmax hdecode).eq

/-- A frame is not empty. -/
theorem tryParseFrame_complete_length (h : tryParseFrame buffer = (.kComplete m, rest)) :
    rest.length < buffer.length := by
  obtain ⟨e, he, rfl⟩ := tryParseFrame_sound h
  obtain ⟨_, _, rfl⟩ := Message.encode_iff.mp he
  simp only [List.length_append, header_length, kFrameHeaderSize]
  omega

end Verdicts

/-- **The parser accepts exactly the encoders' images.** -/
theorem tryParseFrame_complete_iff (buffer : Bytes) (m : Message) (rest : Bytes) :
    tryParseFrame buffer = (.kComplete m, rest) ↔
      ∃ e, m.encode = .ok e ∧ buffer = e ++ rest := by
  constructor
  · exact tryParseFrame_sound
  · rintro ⟨e, he, rfl⟩
    exact tryParseFrame_encode he rest

end Protocol

end NeuralKV
