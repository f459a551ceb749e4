import NeuralKV.Storage.ShardedKV

/-!
# Messages of the wire protocol

Model of `src/protocol/types.h` and `src/protocol/constants.h`.  The integer fields of a message
have the width they have in the source.  An enumeration is an inductive type with the byte or code
that `static_cast` gives for each value; `ofByte` and `ofCode` are the range checks of the
decoders, and the `_eq_some` lemmas say that a value is accepted exactly as it is written.
-/

set_option autoImplicit false

namespace NeuralKV

inductive ResponseStatus where
  | kOk
  | kNotFound
  | kBadRequest
  | kInternalError
  | kWrongLeader
  deriving DecidableEq, Repr

namespace ResponseStatus

def toCode : ResponseStatus → Nat
  | .kOk => 0
  | .kNotFound => 1
  | .kBadRequest => 2
  | .kInternalError => 3
  | .kWrongLeader => 4

def ofCode : Nat → Option ResponseStatus
  | 0 => some .kOk
  | 1 => some .kNotFound
  | 2 => some .kBadRequest
  | 3 => some .kInternalError
  | 4 => some .kWrongLeader
  | _ => none

theorem ofCode_eq_some {code : Nat} {status : ResponseStatus} :
    ofCode code = some status ↔ code = status.toCode := by
  constructor
  · intro h
    unfold ofCode at h
    split at h <;> cases h <;> rfl
  · rintro rfl
    cases status <;> rfl

theorem toCode_lt (status : ResponseStatus) : status.toCode < 256 ^ 2 := by
  cases status <;> decide

end ResponseStatus

namespace Protocol

def kMagic : Nat := 0x4E4B

def kProtocolVersion : UInt8 := 0x01

def kFrameHeaderSize : Nat := 8

def kMaxPayloadSize : Nat := 16 * 1024 * 1024

inductive MessageType where
  | kClientRequest
  | kClientResponse
  | kClusterRequest
  | kClusterResponse
  deriving DecidableEq, Repr

namespace MessageType

def toByte : MessageType → UInt8
  | .kClientRequest => 0x01
  | .kClientResponse => 0x02
  | .kClusterRequest => 0x10
  | .kClusterResponse => 0x11

def ofByte : UInt8 → Option MessageType
  | 0x01 => some .kClientRequest
  | 0x02 => some .kClientResponse
  | 0x10 => some .kClusterRequest
  | 0x11 => some .kClusterResponse
  | _ => none

theorem ofByte_eq_some {byte : UInt8} {type : MessageType} :
    ofByte byte = some type ↔ byte = type.toByte := by
  constructor
  · intro h
    unfold ofByte at h
    split at h <;> cases h <;> rfl
  · rintro rfl
    cases type <;> rfl

end MessageType

inductive Opcode where
  | kSet
  | kGet
  | kDelete
  deriving DecidableEq, Repr

namespace Opcode

def toByte : Opcode → UInt8
  | .kSet => 1
  | .kGet => 2
  | .kDelete => 3

def ofByte : UInt8 → Option Opcode
  | 1 => some .kSet
  | 2 => some .kGet
  | 3 => some .kDelete
  | _ => none

theorem ofByte_eq_some {byte : UInt8} {opcode : Opcode} :
    ofByte byte = some opcode ↔ byte = opcode.toByte := by
  constructor
  · intro h
    unfold ofByte at h
    split at h <;> cases h <;> rfl
  · rintro rfl
    cases opcode <;> rfl

end Opcode

inductive ClusterOpcode where
  | kPing
  | kPong
  | kRequestVote
  | kAppendEntries
  deriving DecidableEq, Repr

namespace ClusterOpcode

def toByte : ClusterOpcode → UInt8
  | .kPing => 1
  | .kPong => 2
  | .kRequestVote => 3
  | .kAppendEntries => 4

def ofByte : UInt8 → Option ClusterOpcode
  | 1 => some .kPing
  | 2 => some .kPong
  | 3 => some .kRequestVote
  | 4 => some .kAppendEntries
  | _ => none

theorem ofByte_eq_some {byte : UInt8} {opcode : ClusterOpcode} :
    ofByte byte = some opcode ↔ byte = opcode.toByte := by
  constructor
  · intro h
    unfold ofByte at h
    split at h <;> cases h <;> rfl
  · rintro rfl
    cases opcode <;> rfl

end ClusterOpcode

structure ClientRequest where
  requestId : UInt64 := 0
  opcode : Opcode := .kGet
  key : Bytes := []
  value : Bytes := []
  deriving DecidableEq, Repr

structure ClientResponse where
  requestId : UInt64 := 0
  status : ResponseStatus := .kOk
  value : Bytes := []
  leaderHint : UInt32 := 0
  deriving DecidableEq, Repr

structure ClusterRequest where
  requestId : UInt64 := 0
  opcode : ClusterOpcode := .kPing
  body : Bytes := []
  deriving DecidableEq, Repr

structure ClusterResponse where
  requestId : UInt64 := 0
  status : ResponseStatus := .kOk
  body : Bytes := []
  deriving DecidableEq, Repr

/-- What a frame carries: the value behind the `out_` pointer that `out_type` selects. -/
inductive Message where
  | clientRequest (req : ClientRequest)
  | clientResponse (resp : ClientResponse)
  | clusterRequest (req : ClusterRequest)
  | clusterResponse (resp : ClusterResponse)
  deriving DecidableEq, Repr

/-- `out_type`. -/
def Message.type : Message → MessageType
  | .clientRequest _ => .kClientRequest
  | .clientResponse _ => .kClientResponse
  | .clusterRequest _ => .kClusterRequest
  | .clusterResponse _ => .kClusterResponse

/-- `ParseResult`, with the message of `kComplete`. -/
inductive ParseResult where
  | kNeedMore
  | kComplete (message : Message)
  | kError
  deriving DecidableEq, Repr

end Protocol

end NeuralKV
