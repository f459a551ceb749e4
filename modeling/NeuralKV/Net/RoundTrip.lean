import NeuralKV.Lib.Runs
import NeuralKV.Server.Session

/-!
# A request and its response over one connection

Model of `ClusterTransport::SendRpc` of `src/cluster/transport.cpp` and of `SendRequest` of
`tools/nkv-client/main.cpp`, each with the `ServeClientSession` at the other end, as two threads and
two byte streams that hold at most `cap` bytes.  Every `write` and `read` moves some of the bytes it
could move, may be interrupted and may fail; requests of other connections reach the handler in
between.

* `CallSpec` — the two callers are one loop that differs in a few places; `sendRpcCall` and
  `sendRequestCall` are its instances.
* `EndPoint` — where the thread at one end is, with one round of `WriteFull` and one `read`.
* `RoundTrip.step` — the two threads and the streams between them.
* `call_answered_once` — **whatever happens, the handler gets the request at most once, and a call
  that returns a response returns the handler's answer to it.**
* `call_completes` — **without failures no size of the socket buffers lets the two wait for each
  other**: the number of steps is bounded, and at the end the call has returned, also if its request
  does not fit into a frame.
-/

set_option autoImplicit false

namespace NeuralKV

open Incremental
open Protocol (Message ClusterRequest ClusterResponse)

/-! ## The callers -/

/-- A call that writes one request and waits for one frame.  `interrupted` is the error of a `read`
that was interrupted, `none` if it is repeated. -/
structure CallSpec (R : Type) where
  request : Message
  isRequest : request.type = .kClientRequest ∨ request.type = .kClusterRequest
  accept : Message → Except Status R
  malformed : Status
  closed : Status
  failed : String → Status
  interrupted : Option Status

/-- `ClusterTransport::SendRpc` behind `TcpConnect`.  Every `n <= 0` of `read` is one error. -/
def sendRpcCall (req : ClusterRequest) : CallSpec ClusterResponse where
  request := .clusterRequest req
  isRequest := Or.inr rfl
  accept
    | .clusterResponse resp => .ok resp
    | _ => .error ⟨.kIOError, "peer sent a non-cluster-response frame"⟩
  malformed := ⟨.kIOError, "malformed cluster response from peer"⟩
  closed := ⟨.kIOError, "connection closed while awaiting cluster response"⟩
  failed _ := ⟨.kIOError, "connection closed while awaiting cluster response"⟩
  interrupted := some ⟨.kIOError, "connection closed while awaiting cluster response"⟩

/-- `SendRequest` of the client.  It does not look at the type of the frame: any other one leaves
`resp` as it was initialised. -/
def sendRequestCall (req : Protocol.ClientRequest) : CallSpec Protocol.ClientResponse where
  request := .clientRequest req
  isRequest := Or.inl rfl
  accept
    | .clientResponse resp => .ok resp
    | _ => .ok {}
  malformed := ⟨.kIOError, "malformed response from server"⟩
  closed := ⟨.kIOError, "connection closed before response received"⟩
  failed errno := ⟨.kIOError, "read: " ++ errno⟩
  interrupted := none

/-- `sizeof(chunk)`. -/
def kChunkSize : Nat := 4096

/-- Program points of the thread at one end of a connection, which returns a `ρ`; `writing left` is
the head of the loop of `WriteFull`. -/
inductive EndPoint (ρ : Type) where
  | writing (left : Bytes)
  | parsing
  | reading
  | returned (result : ρ)
  deriving DecidableEq

namespace EndPoint

variable {ρ : Type}

/-- What is still to be written. -/
def left : EndPoint ρ → Bytes
  | .writing left => left
  | _ => []

/-- The next thing to do is `TryParseFrame`. -/
def atParse : EndPoint ρ → Bool
  | .writing [] => true
  | .parsing => true
  | _ => false

def isReturned : EndPoint ρ → Bool
  | .returned _ => true
  | _ => false

/-- One round of `WriteFull`: `write` takes `n` bytes, as far as there is room in the stream `out`. -/
def write (cap n : Nat) (point : EndPoint ρ) (out : Bytes) : Option (EndPoint ρ × Bytes) :=
  match point with
  | .writing left =>
    if 0 < n ∧ n ≤ left.length ∧ out.length + n ≤ cap then
      some (.writing (left.drop n), out ++ left.take n)
    else none
  | _ => none

/-- `read` returns `n` bytes of the stream `input`, which go into `buffer`. -/
def read (n : Nat) (point : EndPoint ρ) (buffer input : Bytes) :
    Option (EndPoint ρ × Bytes × Bytes) :=
  match point with
  | .reading =>
    if 0 < n ∧ n ≤ input.length ∧ n ≤ kChunkSize then
      some (.parsing, buffer ++ input.take n, input.drop n)
    else none
  | _ => none

/-- The session has returned. -/
@[match_pattern] abbrev ended : EndPoint Unit := .returned ()

end EndPoint

abbrev CallerPoint (R : Type) := EndPoint (Except Status R)

abbrev SessionPoint := EndPoint Unit

/-- Behind the encoder: the session ends if there is nothing to write. -/
def SessionPoint.behind : Except Status Bytes → SessionPoint
  | .ok encoded => .writing encoded
  | .error _ => .ended

/-! ## Both ends -/

/-- One connection.  `requests` and `replies` are the bytes on their way, `buffer` and `readBuffer`
those that the caller and the session have read; `handled` has the calls of the handler, each with
the state it found. -/
structure RoundTrip (σ R : Type) where
  caller : CallerPoint R
  buffer : Bytes := []
  requests : Bytes := []
  replies : Bytes := []
  session : SessionPoint := .parsing
  readBuffer : Bytes := []
  state : σ
  handled : List (σ × Message) := []

inductive TripAction (σ : Type) where
  | callerWrite (n : Nat)
  | callerParse
  | callerRead (n : Nat)
  | callerEof
  | callerInterrupted
  | callerFails (errno : String)
  | sessionParse
  | sessionWrite (n : Nat)
  | sessionRead (n : Nat)
  | sessionEof
  | sessionInterrupted
  | sessionFails
  | other (state : σ)

namespace RoundTrip

variable {σ R : Type}

/-- The call behind `TcpConnect`, and the session behind `accept`. -/
def start (spec : CallSpec R) (s : σ) : RoundTrip σ R :=
  match spec.request.encode with
  | .error status => { caller := .returned (.error status), state := s }
  | .ok encoded => { caller := .writing encoded, state := s }

/-- `TryParseFrame` in the loop of the caller. -/
def callerParse (spec : CallSpec R) (x : RoundTrip σ R) : RoundTrip σ R :=
  match parseFrame x.buffer with
  | .more => { x with caller := .reading }
  | .done m rest => { x with caller := .returned (spec.accept m), buffer := rest }
  | .bad => { x with caller := .returned (.error spec.malformed), buffer := [] }

/-- One round of the inner loop of the session, up to `WriteFull`. -/
def sessionParse (h : RequestHandler σ) (x : RoundTrip σ R) : RoundTrip σ R :=
  match parseFrame x.readBuffer with
  | .more => { x with session := .reading }
  | .bad => { x with session := .ended, readBuffer := [] }
  | .done m rest =>
    match h.answer x.state m with
    | none => { x with session := .ended, readBuffer := rest }
    | some (s, encoded) =>
      { x with
        session := .behind encoded
        readBuffer := rest
        state := s
        handled := x.handled ++ [(x.state, m)] }

/-- One step of one of the threads, or of another connection. -/
def step (h : RequestHandler σ) (spec : CallSpec R) (cap : Nat) (x : RoundTrip σ R) :
    TripAction σ → Option (RoundTrip σ R)
  | .callerWrite n =>
    (x.caller.write cap n x.requests).map fun (caller, requests) => { x with caller, requests }
  | .callerParse => if x.caller.atParse then some (x.callerParse spec) else none
  | .callerRead n =>
    (x.caller.read n x.buffer x.replies).map fun (caller, buffer, replies) =>
      { x with caller, buffer, replies }
  | .callerEof =>
    match x.caller, x.session with
    | .reading, .ended =>
      if x.replies = [] then some { x with caller := .returned (.error spec.closed) } else none
    | _, _ => none
  | .callerInterrupted =>
    match x.caller, spec.interrupted with
    | .writing _, _ => some x
    | .reading, none => some { x with caller := .parsing }
    | .reading, some status => some { x with caller := .returned (.error status) }
    | _, _ => none
  | .callerFails errno =>
    match x.caller with
    | .writing _ => some { x with caller := .returned (.error ⟨.kIOError, "write: " ++ errno⟩) }
    | .reading => some { x with caller := .returned (.error (spec.failed errno)) }
    | _ => none
  | .sessionParse => if x.session.atParse then some (x.sessionParse h) else none
  | .sessionWrite n =>
    (x.session.write cap n x.replies).map fun (session, replies) => { x with session, replies }
  | .sessionRead n =>
    (x.session.read n x.readBuffer x.requests).map fun (session, readBuffer, requests) =>
      { x with session, readBuffer, requests }
  | .sessionEof =>
    match x.session with
    | .reading =>
      if x.caller.isReturned = true ∧ x.requests = [] then some { x with session := .ended }
      else none
    | _ => none
  | .sessionInterrupted =>
    match x.session with
    | .writing _ => some x
    | .reading => some { x with session := .parsing }
    | _ => none
  | .sessionFails =>
    match x.session with
    | .writing _ => some { x with session := .ended }
    | .reading => some { x with session := .ended }
    | _ => none
  | .other s => some { x with state := s }

/-- The states reached by steps that all satisfy `ok`. -/
abbrev Run (h : RequestHandler σ) (spec : CallSpec R) (cap : Nat) (s : σ)
    (ok : RoundTrip σ R → TripAction σ → Prop) : RoundTrip σ R → Prop :=
  Runs.Run (step h spec cap) (start spec s) ok

end RoundTrip

/-! ## Moves -/

/-- What a step can be. -/
inductive TripMove {σ R : Type} (h : RequestHandler σ) (spec : CallSpec R) (cap : Nat)
    (x : RoundTrip σ R) : TripAction σ → RoundTrip σ R → Prop where
  | callerWrote {n : Nat} {left : Bytes} (hpoint : x.caller = .writing left) (hpos : 0 < n)
      (hn : n ≤ left.length) (hroom : x.requests.length + n ≤ cap) :
      TripMove h spec cap x (.callerWrite n)
        { x with caller := .writing (left.drop n), requests := x.requests ++ left.take n }
  | callerParsed (hpoint : x.caller.atParse = true) :
      TripMove h spec cap x .callerParse (x.callerParse spec)
  | callerRead {n : Nat} (hpoint : x.caller = .reading) (hpos : 0 < n) (hn : n ≤ x.replies.length) :
      TripMove h spec cap x (.callerRead n)
        { x with
          caller := .parsing
          buffer := x.buffer ++ x.replies.take n
          replies := x.replies.drop n }
  | callerEof (hpoint : x.caller = .reading) (hended : x.session = .ended)
      (hempty : x.replies = []) :
      TripMove h spec cap x .callerEof { x with caller := .returned (.error spec.closed) }
  | callerRetried {left : Bytes} (hpoint : x.caller = .writing left) :
      TripMove h spec cap x .callerInterrupted x
  | callerReread (hpoint : x.caller = .reading) (hspec : spec.interrupted = none) :
      TripMove h spec cap x .callerInterrupted { x with caller := .parsing }
  | callerFailed {a : TripAction σ} {status : Status} (hpoint : x.caller.isReturned = false)
      (ha : (∃ errno, a = .callerFails errno) ∨
        a = .callerInterrupted ∧ x.caller = .reading ∧ spec.interrupted ≠ none) :
      TripMove h spec cap x a { x with caller := .returned (.error status) }
  | sessionParsed (hpoint : x.session.atParse = true) :
      TripMove h spec cap x .sessionParse (x.sessionParse h)
  | sessionWrote {n : Nat} {left : Bytes} (hpoint : x.session = .writing left) (hpos : 0 < n)
      (hn : n ≤ left.length) (hroom : x.replies.length + n ≤ cap) :
      TripMove h spec cap x (.sessionWrite n)
        { x with session := .writing (left.drop n), replies := x.replies ++ left.take n }
  | sessionRead {n : Nat} (hpoint : x.session = .reading) (hpos : 0 < n)
      (hn : n ≤ x.requests.length) :
      TripMove h spec cap x (.sessionRead n)
        { x with
          session := .parsing
          readBuffer := x.readBuffer ++ x.requests.take n
          requests := x.requests.drop n }
  | sessionEof (hpoint : x.session = .reading) (hreturned : x.caller.isReturned = true)
      (hempty : x.requests = []) :
      TripMove h spec cap x .sessionEof { x with session := .ended }
  | sessionRetried {left : Bytes} (hpoint : x.session = .writing left) :
      TripMove h spec cap x .sessionInterrupted x
  | sessionReread (hpoint : x.session = .reading) :
      TripMove h spec cap x .sessionInterrupted { x with session := .parsing }
  | sessionFailed : TripMove h spec cap x .sessionFails { x with session := .ended }
  | other {s : σ} : TripMove h spec cap x (.other s) { x with state := s }

namespace EndPoint

variable {ρ : Type} {cap n : Nat} {point point' : EndPoint ρ} {buffer buffer' stream stream' : Bytes}

theorem write_eq_some (h : point.write cap n stream = some (point', stream')) :
    ∃ left, point = .writing left ∧ 0 < n ∧ n ≤ left.length ∧ stream.length + n ≤ cap ∧
      point' = .writing (left.drop n) ∧ stream' = stream ++ left.take n := by
  unfold write at h
  split at h
  · rename_i left
    obtain ⟨⟨hpos, hn, hroom⟩, heq⟩ := Option.ite_none_right_eq_some.mp h
    cases heq
    exact ⟨left, rfl, hpos, hn, hroom, rfl, rfl⟩
  · cases h

theorem read_eq_some (h : point.read n buffer stream = some (point', buffer', stream')) :
    point = .reading ∧ 0 < n ∧ n ≤ stream.length ∧ point' = .parsing ∧
      buffer' = buffer ++ stream.take n ∧ stream' = stream.drop n := by
  unfold read at h
  split at h
  · obtain ⟨⟨hpos, hn, -⟩, heq⟩ := Option.ite_none_right_eq_some.mp h
    cases heq
    exact ⟨rfl, hpos, hn, rfl, rfl, rfl⟩
  · cases h

theorem write_one (h : stream.length + 1 ≤ cap) (b : UInt8) (left : Bytes) :
    ((EndPoint.writing (b :: left) : EndPoint ρ).write cap 1 stream).isSome = true := by
  simp [write, h]

theorem read_one (hne : stream ≠ []) :
    ((EndPoint.reading : EndPoint ρ).read 1 buffer stream).isSome = true := by
  have hone : 1 ≤ stream.length := List.length_pos_iff.mpr hne
  simp [read, kChunkSize, hone]

theorem left_atParse (h : point.atParse = true) : point.left = [] ∧ point.isReturned = false := by
  cases point with
  | writing left =>
    cases left with
    | nil => exact ⟨rfl, rfl⟩
    | cons b left => cases h
  | parsing => exact ⟨rfl, rfl⟩
  | reading => cases h
  | returned result => cases h

theorem ne_returned (h : point.isReturned = false) (result : ρ) : point ≠ .returned result := by
  rintro rfl
  cases h

/-- There is nothing to write for one who has nothing left. -/
theorem nothing_left {left : Bytes} (hpoint : point = .writing left) (hleft : point.left = [])
    (hpos : 0 < n) : ¬ n ≤ left.length := by
  subst hpoint
  have hempty : left = [] := hleft
  rw [hempty]
  exact Nat.not_le.mpr hpos

/-- A thread that has something left is writing. -/
theorem writing_of_left {b : UInt8} {rest : Bytes} (h : point.left = b :: rest) :
    point = .writing (b :: rest) := by
  cases point with
  | writing left =>
    have hleft : left = b :: rest := h
    rw [hleft]
  | parsing => cases h
  | reading => cases h
  | returned result => cases h

end EndPoint

section Inversion

variable {σ R : Type} {h : RequestHandler σ} {spec : CallSpec R} {cap : Nat} {x x' : RoundTrip σ R}

/-- **Every step is one of the moves.** -/
theorem trip_move {a : TripAction σ} (hs : x.step h spec cap a = some x') :
    TripMove h spec cap x a x' := by
  cases a with
  | callerWrite n =>
    obtain ⟨⟨point, out⟩, hwrite, heq⟩ := Option.map_eq_some_iff.mp hs
    obtain ⟨left, hpoint, hpos, hn, hroom, rfl, rfl⟩ := EndPoint.write_eq_some hwrite
    cases heq
    exact .callerWrote hpoint hpos hn hroom
  | callerParse =>
    obtain ⟨hpoint, heq⟩ := Option.ite_none_right_eq_some.mp hs
    cases heq
    exact .callerParsed hpoint
  | callerRead n =>
    obtain ⟨⟨point, buffer, rest⟩, hread, heq⟩ := Option.map_eq_some_iff.mp hs
    obtain ⟨hpoint, hpos, hn, rfl, rfl, rfl⟩ := EndPoint.read_eq_some hread
    cases heq
    exact .callerRead hpoint hpos hn
  | callerEof =>
    simp only [RoundTrip.step] at hs
    split at hs
    · rename_i hpoint hended
      obtain ⟨hempty, heq⟩ := Option.ite_none_right_eq_some.mp hs
      cases heq
      exact .callerEof hpoint hended hempty
    · cases hs
  | callerInterrupted =>
    simp only [RoundTrip.step] at hs
    split at hs
    · rename_i hpoint
      cases hs
      exact .callerRetried hpoint
    · rename_i hpoint hspec
      cases hs
      exact .callerReread hpoint hspec
    · rename_i status hpoint hspec
      cases hs
      refine .callerFailed (by rw [hpoint]; rfl) (Or.inr ⟨rfl, hpoint, ?_⟩)
      rw [hspec]
      exact Option.some_ne_none status
    · cases hs
  | callerFails errno =>
    simp only [RoundTrip.step] at hs
    split at hs
    · rename_i hpoint
      cases hs
      exact .callerFailed (by rw [hpoint]; rfl) (Or.inl ⟨errno, rfl⟩)
    · rename_i hpoint
      cases hs
      exact .callerFailed (by rw [hpoint]; rfl) (Or.inl ⟨errno, rfl⟩)
    · cases hs
  | sessionParse =>
    obtain ⟨hpoint, heq⟩ := Option.ite_none_right_eq_some.mp hs
    cases heq
    exact .sessionParsed hpoint
  | sessionWrite n =>
    obtain ⟨⟨point, out⟩, hwrite, heq⟩ := Option.map_eq_some_iff.mp hs
    obtain ⟨left, hpoint, hpos, hn, hroom, rfl, rfl⟩ := EndPoint.write_eq_some hwrite
    cases heq
    exact .sessionWrote hpoint hpos hn hroom
  | sessionRead n =>
    obtain ⟨⟨point, buffer, rest⟩, hread, heq⟩ := Option.map_eq_some_iff.mp hs
    obtain ⟨hpoint, hpos, hn, rfl, rfl, rfl⟩ := EndPoint.read_eq_some hread
    cases heq
    exact .sessionRead hpoint hpos hn
  | sessionEof =>
    simp only [RoundTrip.step] at hs
    split at hs
    · rename_i hpoint
      obtain ⟨⟨hreturned, hempty⟩, heq⟩ := Option.ite_none_right_eq_some.mp hs
      cases heq
      exact .sessionEof hpoint hreturned hempty
    · cases hs
  | sessionInterrupted =>
    simp only [RoundTrip.step] at hs
    split at hs
    · rename_i hpoint
      cases hs
      exact .sessionRetried hpoint
    · rename_i hpoint
      cases hs
      exact .sessionReread hpoint
    · cases hs
  | sessionFails =>
    simp only [RoundTrip.step] at hs
    split at hs
    · cases hs
      exact .sessionFailed
    · cases hs
      exact .sessionFailed
    · cases hs
  | other s =>
    cases hs
    exact .other

end Inversion

/-! ## Frames and their beginnings -/

/-- Of a frame that arrives byte by byte nothing is taken before it is complete. -/
theorem parseFrame_prefix {m : Message} {e p : Bytes} (he : m.encode = .ok e) (hp : p <+: e) :
    parseFrame p = .more ∨ (p = e ∧ parseFrame p = .done m []) := by
  obtain ⟨t, rfl⟩ := hp
  have hwhole : parseFrame (p ++ t) = .done m [] := by
    have hparse := Protocol.tryParseFrame_encode he []
    rw [List.append_nil] at hparse
    exact parseFrame_done.mpr hparse
  cases hparse : parseFrame p with
  | more => exact Or.inl rfl
  | done m' rest =>
    have hmore := parseFrame_stable.done hparse t
    rw [hwhole] at hmore
    obtain ⟨rfl, hrest⟩ := Parse.done.inj hmore
    obtain ⟨rfl, rfl⟩ := List.append_eq_nil_iff.mp hrest.symm
    exact Or.inr ⟨(List.append_nil p).symm, rfl⟩
  | bad =>
    have hmore := parseFrame_stable.bad hparse t
    rw [hwhole] at hmore
    cases hmore

/-- The response that the handler gives to a request. -/
def RequestHandler.reply {σ : Type} (h : RequestHandler σ) (s : σ) : Message → Option Message
  | .clientRequest req => some (.clientResponse (h.handle s req).2)
  | .clusterRequest req => some (.clusterResponse (h.handleCluster s req).2)
  | .clientResponse _ => none
  | .clusterResponse _ => none

theorem answer_eq {σ : Type} (h : RequestHandler σ) (s : σ) {m : Message}
    (hm : m.type = .kClientRequest ∨ m.type = .kClusterRequest) :
    ∃ s' reply, h.reply s m = some reply ∧ h.answer s m = some (s', reply.encode) := by
  cases m with
  | clientRequest req => exact ⟨_, _, rfl, rfl⟩
  | clusterRequest req => exact ⟨_, _, rfl, rfl⟩
  | clientResponse resp => rcases hm with hm | hm <;> cases hm
  | clusterResponse resp => rcases hm with hm | hm <;> cases hm

/-! ## The three phases of a call -/

section Phases

variable {σ R : Type} (h : RequestHandler σ) (spec : CallSpec R)

/-- The handler has not seen the request; `e` is its frame. -/
structure Asking (e : Bytes) (x : RoundTrip σ R) : Prop where
  handled : x.handled = []
  sent : x.readBuffer ++ x.requests ++ x.caller.left <+: e
  whole : x.caller.isReturned = false → x.readBuffer ++ x.requests ++ x.caller.left = e
  buffer : x.buffer = []
  replies : x.replies = []
  session : x.session.left = []
  result : ∀ v, x.caller ≠ .returned (.ok v)

/-- The handler has answered in state `s`, and `r` is the frame of its reply. -/
structure Answered (s : σ) (reply : Message) (r : Bytes) (x : RoundTrip σ R) : Prop where
  handled : x.handled = [(s, spec.request)]
  answer : h.reply s spec.request = some reply
  encoded : reply.encode = .ok r
  readBuffer : x.readBuffer = []
  requests : x.requests = []
  caller : x.caller.left = []
  sent : x.caller.isReturned = false → x.buffer ++ x.replies ++ x.session.left <+: r
  whole : x.caller.isReturned = false → x.session ≠ .ended →
    x.buffer ++ x.replies ++ x.session.left = r
  result : ∀ v, x.caller = .returned (.ok v) → spec.accept reply = .ok v

/-- The handler has answered in state `s` with a reply that no frame can hold. -/
structure Refused (s : σ) (reply : Message) (x : RoundTrip σ R) : Prop where
  handled : x.handled = [(s, spec.request)]
  answer : h.reply s spec.request = some reply
  unencodable : ∃ status, reply.encode = .error status
  ended : x.session = .ended
  caller : x.caller.left = []
  buffer : x.buffer = []
  replies : x.replies = []
  result : ∀ v, x.caller ≠ .returned (.ok v)

/-- Where a call is. -/
inductive Phase (e : Bytes) (x : RoundTrip σ R) : Prop where
  | asking (A : Asking e x)
  | answered {s : σ} {reply : Message} {r : Bytes} (A : Answered h spec s reply r x)
  | refused {s : σ} {reply : Message} (A : Refused h spec s reply x)

end Phases

section Steps

variable {σ R : Type} {h : RequestHandler σ} {spec : CallSpec R} {cap : Nat} {x x' : RoundTrip σ R}
  {e r : Bytes} {s : σ} {reply : Message}

theorem callerParse_nil (hbuffer : x.buffer = []) :
    x.callerParse spec = { x with caller := .reading } := by
  unfold RoundTrip.callerParse
  rw [hbuffer]
  rfl

theorem sessionParse_more (hmore : parseFrame x.readBuffer = .more) :
    x.sessionParse h = { x with session := .reading } := by
  unfold RoundTrip.sessionParse
  rw [hmore]

theorem sessionParse_nil (hbuffer : x.readBuffer = []) :
    x.sessionParse h = { x with session := .reading } := by
  refine sessionParse_more ?_
  rw [hbuffer]
  rfl

/-- **The session parses**: it needs more, or it has the whole request and the handler answers. -/
theorem Asking.sessionParse (A : Asking e x) (he : spec.request.encode = .ok e) :
    parseFrame x.readBuffer = .more ∨
      x.requests = [] ∧ x.caller.left = [] ∧
        ∃ s' reply, h.reply x.state spec.request = some reply ∧
          x.sessionParse h =
            { x with
              session := .behind reply.encode
              readBuffer := []
              state := s'
              handled := [(x.state, spec.request)] } := by
  have hinitial : x.readBuffer <+: e := by
    have hsent := A.sent
    rw [List.append_assoc] at hsent
    exact (List.prefix_append _ _).trans hsent
  rcases parseFrame_prefix he hinitial with hmore | ⟨hwhole, hdone⟩
  · exact Or.inl hmore
  · obtain ⟨s', reply, hreply, hanswer⟩ := answer_eq h x.state spec.isRequest
    -- nothing of the request is left on the way
    obtain ⟨hrequests, hleft⟩ : x.requests = [] ∧ x.caller.left = [] := by
      have hsent := A.sent.length_le
      rw [hwhole, List.append_assoc, List.length_append] at hsent
      refine List.append_eq_nil_iff.mp (List.eq_nil_of_length_eq_zero ?_)
      omega
    refine Or.inr ⟨hrequests, hleft, s', reply, hreply, ?_⟩
    unfold RoundTrip.sessionParse
    rw [hdone]
    simp only [hanswer, A.handled, List.nil_append]

theorem Asking.handles (A : Asking e x) (hrequests : x.requests = []) (hleft : x.caller.left = [])
    {s' : σ} (hreply : h.reply x.state spec.request = some reply) :
    Phase h spec e
      { x with
        session := .behind reply.encode
        readBuffer := []
        state := s'
        handled := [(x.state, spec.request)] } := by
  cases hencode : reply.encode with
  | error status =>
    exact .refused
      { handled := rfl
        answer := hreply
        unencodable := ⟨status, hencode⟩
        ended := rfl
        caller := hleft
        buffer := A.buffer
        replies := A.replies
        result := A.result }
  | ok r =>
    exact .answered
      { handled := rfl
        answer := hreply
        encoded := hencode
        readBuffer := rfl
        requests := hrequests
        caller := hleft
        sent := fun _ => by simp [A.buffer, A.replies, SessionPoint.behind, EndPoint.left]
        whole := fun _ _ => by simp [A.buffer, A.replies, SessionPoint.behind, EndPoint.left]
        result := fun v hv => absurd hv (A.result v) }

/-- Bytes that move from one place to the next. -/
theorem append_take_drop (p q l : Bytes) (n : Nat) :
    p ++ (q ++ l.take n) ++ l.drop n = p ++ q ++ l := by
  rw [List.append_assoc, List.append_assoc, List.take_append_drop, List.append_assoc]

theorem take_append_drop_append (p l q : Bytes) (n : Nat) :
    p ++ l.take n ++ l.drop n ++ q = p ++ l ++ q := by
  rw [List.append_assoc p, List.take_append_drop]

theorem Asking.move (A : Asking e x) (he : spec.request.encode = .ok e) {a : TripAction σ}
    (mv : TripMove h spec cap x a x') : Phase h spec e x' := by
  cases mv with
  | @callerWrote n left hpoint hpos hn hroom =>
    have hwhole := A.whole (by rw [hpoint]; rfl)
    rw [hpoint] at hwhole
    have hsame : x.readBuffer ++ (x.requests ++ left.take n) ++ left.drop n = e := by
      rw [append_take_drop]
      exact hwhole
    exact .asking
      { A with
        sent := hsame ▸ List.prefix_rfl
        whole := fun _ => hsame
        result := nofun }
  | callerParsed hpoint =>
    obtain ⟨hleft, hgoes⟩ := EndPoint.left_atParse hpoint
    have hwhole := A.whole hgoes
    have hsent := A.sent
    rw [hleft] at hwhole hsent
    rw [callerParse_nil A.buffer]
    exact .asking { A with sent := hsent, whole := fun _ => hwhole, result := nofun }
  | callerRead hpoint hpos hn =>
    rw [A.replies] at hn
    exact absurd hn (Nat.not_le.mpr hpos)
  | callerEof hpoint hended hempty =>
    have hsent := A.sent
    rw [hpoint] at hsent
    exact .asking { A with sent := hsent, whole := nofun, result := nofun }
  | callerRetried hpoint => exact .asking A
  | callerReread hpoint hspec =>
    have hwhole := A.whole (by rw [hpoint]; rfl)
    rw [hpoint] at hwhole
    exact .asking
      { A with
        sent := hwhole ▸ List.prefix_rfl
        whole := fun _ => hwhole
        result := nofun }
  | callerFailed hpoint ha =>
    have hsent : x.readBuffer ++ x.requests ++ [] <+: e := by
      rw [List.append_nil]
      exact (List.prefix_append _ _).trans A.sent
    exact .asking { A with sent := hsent, whole := nofun, result := nofun }
  | sessionParsed hpoint =>
    rcases A.sessionParse he with hmore | ⟨hrequests, hleft, s', reply, hreply, heq⟩
    · rw [sessionParse_more hmore]
      exact .asking { A with session := rfl }
    · rw [heq]
      exact A.handles hrequests hleft hreply
  | sessionWrote hpoint hpos hn hroom =>
    exact absurd hn (EndPoint.nothing_left hpoint A.session hpos)
  | @sessionRead n hpoint hpos hn =>
    have hsame := take_append_drop_append x.readBuffer x.requests x.caller.left n
    refine .asking
      { A with
        sent := ?_
        whole := fun hgoes => ?_
        session := rfl }
    · rw [hsame]
      exact A.sent
    · rw [hsame]
      exact A.whole hgoes
  | sessionEof hpoint hreturned hempty => exact .asking { A with session := rfl }
  | sessionRetried hpoint => exact .asking A
  | sessionReread hpoint => exact .asking { A with session := rfl }
  | sessionFailed => exact .asking { A with session := rfl }
  | other => exact .asking { A with }

/-- **The caller parses**: it needs more, or it has the whole reply. -/
theorem Answered.callerParse (A : Answered h spec s reply r x) (hpoint : x.caller.atParse = true) :
    Answered h spec s reply r (x.callerParse spec) := by
  obtain ⟨hleft, hgoes⟩ := EndPoint.left_atParse hpoint
  have hsent := A.sent hgoes
  have hinitial : x.buffer <+: r := by
    rw [List.append_assoc] at hsent
    exact (List.prefix_append _ _).trans hsent
  unfold RoundTrip.callerParse
  rcases parseFrame_prefix A.encoded hinitial with hmore | ⟨-, hdone⟩
  · rw [hmore]
    exact
      { A with
        caller := rfl
        sent := fun _ => hsent
        whole := fun _ => A.whole hgoes
        result := nofun }
  · rw [hdone]
    exact
      { A with
        caller := rfl
        sent := nofun
        whole := nofun
        result := fun v hv => EndPoint.returned.inj hv }

theorem Answered.move (A : Answered h spec s reply r x) {a : TripAction σ}
    (mv : TripMove h spec cap x a x') : Answered h spec s reply r x' := by
  cases mv with
  | callerWrote hpoint hpos hn hroom =>
    exact absurd hn (EndPoint.nothing_left hpoint A.caller hpos)
  | callerParsed hpoint => exact A.callerParse hpoint
  | @callerRead n hpoint hpos hn =>
    have hgoes : x.caller.isReturned = false := by rw [hpoint]; rfl
    have hsame := take_append_drop_append x.buffer x.replies x.session.left n
    refine { A with caller := rfl, sent := fun _ => ?_, whole := fun _ hup => ?_, result := nofun }
    · rw [hsame]
      exact A.sent hgoes
    · rw [hsame]
      exact A.whole hgoes hup
  | callerEof hpoint hended hempty =>
    exact { A with caller := rfl, sent := nofun, whole := nofun, result := nofun }
  | callerRetried hpoint => exact A
  | callerReread hpoint hspec =>
    have hgoes : x.caller.isReturned = false := by rw [hpoint]; rfl
    exact
      { A with
        caller := rfl
        sent := fun _ => A.sent hgoes
        whole := fun _ => A.whole hgoes
        result := nofun }
  | callerFailed hpoint ha =>
    exact { A with caller := rfl, sent := nofun, whole := nofun, result := nofun }
  | sessionParsed hpoint =>
    obtain ⟨hleft, hup⟩ := EndPoint.left_atParse hpoint
    have hsent := A.sent
    have hwhole := A.whole
    rw [hleft] at hsent hwhole
    rw [sessionParse_nil A.readBuffer]
    exact { A with sent := hsent, whole := fun hgoes _ => hwhole hgoes (EndPoint.ne_returned hup ()) }
  | @sessionWrote n left hpoint hpos hn hroom =>
    have hsent := A.sent
    have hwhole := A.whole
    rw [hpoint] at hsent hwhole
    have hsame := append_take_drop x.buffer x.replies left n
    refine { A with sent := fun hgoes => ?_, whole := fun hgoes _ => ?_ }
    · show x.buffer ++ (x.replies ++ left.take n) ++ left.drop n <+: r
      rw [hsame]
      exact hsent hgoes
    · show x.buffer ++ (x.replies ++ left.take n) ++ left.drop n = r
      rw [hsame]
      exact hwhole hgoes nofun
  | sessionRead hpoint hpos hn =>
    rw [A.requests] at hn
    exact absurd hn (Nat.not_le.mpr hpos)
  | sessionEof hpoint hreturned hempty =>
    have hgone : x.caller.isReturned = false → False := by simp [hreturned]
    exact
      { A with
        sent := fun hgoes => (hgone hgoes).elim
        whole := fun hgoes => (hgone hgoes).elim }
  | sessionRetried hpoint => exact A
  | sessionReread hpoint =>
    have hsent := A.sent
    have hwhole := A.whole
    rw [hpoint] at hsent hwhole
    exact { A with sent := hsent, whole := fun hgoes _ => hwhole hgoes nofun }
  | sessionFailed =>
    refine { A with sent := fun hgoes => ?_, whole := fun _ hup => absurd rfl hup }
    have hsent := A.sent hgoes
    show x.buffer ++ x.replies ++ [] <+: r
    rw [List.append_nil]
    exact (List.prefix_append _ _).trans hsent
  | other => exact { A with }

theorem Refused.move (A : Refused h spec s reply x) {a : TripAction σ}
    (mv : TripMove h spec cap x a x') : Refused h spec s reply x' := by
  have hended := A.ended
  cases mv with
  | callerWrote hpoint hpos hn hroom =>
    exact absurd hn (EndPoint.nothing_left hpoint A.caller hpos)
  | callerParsed hpoint =>
    rw [callerParse_nil A.buffer]
    exact { A with caller := rfl, result := nofun }
  | callerRead hpoint hpos hn =>
    rw [A.replies] at hn
    exact absurd hn (Nat.not_le.mpr hpos)
  | callerEof hpoint hended hempty => exact { A with caller := rfl, result := nofun }
  | callerRetried hpoint => exact A
  | callerReread hpoint hspec => exact { A with caller := rfl, result := nofun }
  | callerFailed hpoint ha => exact { A with caller := rfl, result := nofun }
  | sessionParsed hpoint =>
    rw [hended] at hpoint
    cases hpoint
  | sessionWrote hpoint hpos hn hroom =>
    rw [hended] at hpoint
    cases hpoint
  | sessionRead hpoint hpos hn =>
    rw [hended] at hpoint
    cases hpoint
  | sessionEof hpoint hreturned hempty =>
    rw [hended] at hpoint
    cases hpoint
  | sessionRetried hpoint => exact A
  | sessionReread hpoint =>
    rw [hended] at hpoint
    cases hpoint
  | sessionFailed => exact { A with ended := rfl }
  | other => exact { A with }

theorem Phase.move (P : Phase h spec e x) (he : spec.request.encode = .ok e) {a : TripAction σ}
    (mv : TripMove h spec cap x a x') : Phase h spec e x' := by
  cases P with
  | asking A => exact A.move he mv
  | answered A => exact .answered (A.move mv)
  | refused A => exact .refused (A.move mv)

theorem start_eq (he : spec.request.encode = .ok e) :
    (RoundTrip.start spec s : RoundTrip σ R) = { caller := .writing e, state := s } := by
  unfold RoundTrip.start
  rw [he]

theorem run_phase (he : spec.request.encode = .ok e) {ok : RoundTrip σ R → TripAction σ → Prop}
    (hr : RoundTrip.Run h spec cap s ok x) : Phase h spec e x := by
  induction hr with
  | init =>
    rw [start_eq he]
    exact .asking ⟨rfl, List.prefix_rfl, fun _ => rfl, rfl, rfl, rfl, nofun⟩
  | step _ _ hs ih => exact ih.move he (trip_move hs)

end Steps

/-! ## At most once -/

section Once

variable {σ R : Type} {h : RequestHandler σ} {spec : CallSpec R} {cap : Nat} {x x' : RoundTrip σ R}
  {e : Bytes} {s : σ}

/-- The request could not be encoded, and nothing was sent. -/
structure Unsent (status : Status) (x : RoundTrip σ R) : Prop where
  handled : x.handled = []
  readBuffer : x.readBuffer = []
  requests : x.requests = []
  caller : x.caller = .returned (.error status)

theorem Unsent.move {status : Status} (U : Unsent status x) {a : TripAction σ}
    (mv : TripMove h spec cap x a x') : Unsent status x' := by
  have hcaller := U.caller
  cases mv with
  | callerWrote hpoint hpos hn hroom => rw [hcaller] at hpoint; cases hpoint
  | callerParsed hpoint => rw [hcaller] at hpoint; cases hpoint
  | callerRead hpoint hpos hn => rw [hcaller] at hpoint; cases hpoint
  | callerEof hpoint hended hempty => rw [hcaller] at hpoint; cases hpoint
  | callerRetried hpoint => exact U
  | callerReread hpoint hspec => rw [hcaller] at hpoint; cases hpoint
  | callerFailed hpoint ha => rw [hcaller] at hpoint; cases hpoint
  | sessionParsed hpoint =>
    rw [sessionParse_nil U.readBuffer]
    exact { U with }
  | sessionWrote hpoint hpos hn hroom => exact { U with }
  | sessionRead hpoint hpos hn =>
    rw [U.requests] at hn
    exact absurd hn (Nat.not_le.mpr hpos)
  | sessionEof hpoint hreturned hempty => exact { U with }
  | sessionRetried hpoint => exact U
  | sessionReread hpoint => exact { U with }
  | sessionFailed => exact { U with }
  | other => exact { U with }

theorem run_unsent {status : Status} (he : spec.request.encode = .error status)
    {ok : RoundTrip σ R → TripAction σ → Prop} (hr : RoundTrip.Run h spec cap s ok x) :
    Unsent status x := by
  induction hr with
  | init =>
    unfold RoundTrip.start
    rw [he]
    exact ⟨rfl, rfl, rfl, rfl⟩
  | step _ _ hs ih => exact ih.move (trip_move hs)

/-- **The handler has the request at most once, and a result is its answer.** -/
theorem run_answered (hr : RoundTrip.Run h spec cap s Runs.anyStep x) :
    (x.handled = [] ∨ ∃ s', x.handled = [(s', spec.request)]) ∧
      ∀ v, x.caller = .returned (.ok v) → ∃ s' reply, x.handled = [(s', spec.request)] ∧
        h.reply s' spec.request = some reply ∧ spec.accept reply = .ok v := by
  cases hencode : spec.request.encode with
  | error status =>
    have U := run_unsent hencode hr
    refine ⟨Or.inl U.handled, fun v hv => ?_⟩
    rw [U.caller] at hv
    cases hv
  | ok e =>
    cases run_phase hencode hr with
    | asking A => exact ⟨Or.inl A.handled, fun v hv => absurd hv (A.result v)⟩
    | answered A =>
      exact ⟨Or.inr ⟨_, A.handled⟩, fun v hv => ⟨_, _, A.handled, A.answer, A.result v hv⟩⟩
    | refused A => exact ⟨Or.inr ⟨_, A.handled⟩, fun v hv => absurd hv (A.result v)⟩

end Once

/-- **At most once, and answered by the handler**: for every size of the socket buffers, every way
in which the streams are cut, interrupted, lost or closed, and whatever other connections do
meanwhile, `SendRpc` and `SendRequest` get their request to the handler at most once, and a response
they return is the handler's answer to that request. -/
theorem call_answered_once {σ : Type} (h : RequestHandler σ) (cap : Nat) (s : σ) :
    (∀ (req : ClusterRequest) x, RoundTrip.Run h (sendRpcCall req) cap s Runs.anyStep x →
      (x.handled = [] ∨ ∃ s', x.handled = [(s', .clusterRequest req)]) ∧
        ∀ resp, x.caller = .returned (.ok resp) →
          ∃ s', x.handled = [(s', .clusterRequest req)] ∧ resp = (h.handleCluster s' req).2) ∧
    ∀ (req : Protocol.ClientRequest) x, RoundTrip.Run h (sendRequestCall req) cap s Runs.anyStep x →
      (x.handled = [] ∨ ∃ s', x.handled = [(s', .clientRequest req)]) ∧
        ∀ resp, x.caller = .returned (.ok resp) →
          ∃ s', x.handled = [(s', .clientRequest req)] ∧ resp = (h.handle s' req).2 := by
  constructor
  · intro req x hr
    obtain ⟨honce, hresult⟩ := run_answered hr
    refine ⟨honce, fun resp hresp => ?_⟩
    obtain ⟨s', reply, hhandled, hreply, haccept⟩ := hresult resp hresp
    cases hreply
    cases haccept
    exact ⟨s', hhandled, rfl⟩
  · intro req x hr
    obtain ⟨honce, hresult⟩ := run_answered hr
    refine ⟨honce, fun resp hresp => ?_⟩
    obtain ⟨s', reply, hhandled, hreply, haccept⟩ := hresult resp hresp
    cases hreply
    cases haccept
    exact ⟨s', hhandled, rfl⟩

/-- A `PING` over streams of 16 bytes. -/
def pingActions : List (TripAction Nat) :=
  [.callerWrite 16, .sessionParse, .callerInterrupted, .sessionRead 16, .callerWrite 5,
    .sessionParse, .sessionInterrupted, .callerParse, .sessionParse, .sessionRead 5, .other 7,
    .sessionParse, .sessionWrite 16, .callerRead 3, .callerParse, .callerRead 13, .sessionWrite 6,
    .sessionParse, .callerParse, .callerRead 6, .callerParse]

/-- Another connection has raised the count to 7 when the handler gets the request. -/
theorem call_answered_once_ping :
    ∃ x, RoundTrip.Run countingHandler (sendRpcCall { requestId := 3 }) 16 0 Runs.anyStep x ∧
      x.caller = .returned (.ok { requestId := 3, status := .kBadRequest }) ∧
      x.handled = [(7, .clusterRequest { requestId := 3 })] := by
  obtain ⟨x, hr, hx⟩ : ∃ x,
      RoundTrip.Run countingHandler (sendRpcCall { requestId := 3 }) 16 0 Runs.anyStep x ∧
        (decide (x.caller = .returned (.ok { requestId := 3, status := .kBadRequest })) &&
          decide (x.handled.map Prod.fst = [7])) = true :=
    Runs.exists_run pingActions (by decide +kernel)
  obtain ⟨hcaller, hstate⟩ := Bool.and_eq_true_iff.mp hx
  have hcaller := of_decide_eq_true hcaller
  have hstate := of_decide_eq_true hstate
  obtain ⟨s', hhandled, -⟩ :=
    ((call_answered_once countingHandler 16 0).1 { requestId := 3 } x hr).2 _ hcaller
  refine ⟨x, hr, hcaller, ?_⟩
  rw [hhandled] at hstate ⊢
  obtain rfl : s' = 7 := List.singleton_inj.mp hstate
  rfl

/-! ## Completion -/

/-- A step that gets one of the two threads further. -/
def TripAction.advances {σ : Type} : TripAction σ → Bool
  | .callerWrite _ | .callerParse | .callerRead _ | .callerEof => true
  | .sessionParse | .sessionWrite _ | .sessionRead _ | .sessionEof => true
  | _ => false

def TripAction.interrupts {σ : Type} : TripAction σ → Bool
  | .callerInterrupted | .sessionInterrupted => true
  | _ => false

def EndPoint.isReading {ρ : Type} : EndPoint ρ → Bool
  | .reading => true
  | _ => false

/-- No `read` or `write` fails, and a `read` whose interruption the caller takes for a failure is
not interrupted. -/
def undisturbed {σ R : Type} (spec : CallSpec R) (x : RoundTrip σ R) : TripAction σ → Prop
  | .callerFails _ => False
  | .sessionFails => False
  | .callerInterrupted => spec.interrupted = none ∨ x.caller.isReading = false
  | _ => True

instance {σ R : Type} (spec : CallSpec R) (x : RoundTrip σ R) :
    (a : TripAction σ) → Decidable (undisturbed spec x a)
  | .callerFails _ | .sessionFails => instDecidableFalse
  | .callerInterrupted =>
    inferInstanceAs (Decidable (spec.interrupted = none ∨ x.caller.isReading = false))
  | .callerWrite _ | .callerParse | .callerRead _ | .callerEof => instDecidableTrue
  | .sessionParse | .sessionWrite _ | .sessionRead _ | .sessionEof => instDecidableTrue
  | .sessionInterrupted | .other _ => instDecidableTrue

section Completion

variable {σ R : Type} {h : RequestHandler σ} {spec : CallSpec R} {cap : Nat} {x x' : RoundTrip σ R}
  {e : Bytes} {s : σ}

/-- What an undisturbed call returns. -/
def Outcome (h : RequestHandler σ) (spec : CallSpec R) (x : RoundTrip σ R)
    (v : Except Status R) : Prop :=
  (∃ s reply r, Answered h spec s reply r x ∧ v = spec.accept reply) ∨
    ∃ s reply, Refused h spec s reply x ∧ v = .error spec.closed

/-- A thread waits for bytes only if it needs them, and the session ends only when nothing is left
to do for it. -/
structure Smooth (h : RequestHandler σ) (spec : CallSpec R) (e : Bytes) (x : RoundTrip σ R) :
    Prop where
  phase : Phase h spec e x
  callerWaits : x.caller = .reading → parseFrame x.buffer = .more
  sessionWaits : x.session = .reading → parseFrame x.readBuffer = .more
  sessionEnds : x.caller.isReturned = false → x.session = .ended →
    ∃ s reply, Refused h spec s reply x
  outcome : ∀ v, x.caller = .returned v → Outcome h spec x v

/-- A caller fails only where it is disturbed. -/
theorem undisturbed_not_failed {a : TripAction σ} (hok : undisturbed spec x a)
    (ha : (∃ errno, a = .callerFails errno) ∨
      a = .callerInterrupted ∧ x.caller = .reading ∧ spec.interrupted ≠ none) : False := by
  rcases ha with ⟨errno, rfl⟩ | ⟨rfl, hreading, hspec⟩
  · exact hok
  · rcases hok with hnone | hother
    · exact hspec hnone
    · rw [hreading] at hother
      cases hother

theorem Outcome.move {v : Except Status R} (O : Outcome h spec x v) {a : TripAction σ}
    (mv : TripMove h spec cap x a x') : Outcome h spec x' v := by
  rcases O with ⟨s, reply, r, A, hv⟩ | ⟨s, reply, A, hv⟩
  · exact Or.inl ⟨s, reply, r, A.move mv, hv⟩
  · exact Or.inr ⟨s, reply, A.move mv, hv⟩

/-- A caller that parses. -/
theorem Smooth.callerParse (S : Smooth h spec e x) (hpoint : x.caller.atParse = true) :
    (parseFrame x.buffer = .more ∧ x.callerParse spec = { x with caller := .reading }) ∨
      ∃ s reply r, Answered h spec s reply r (x.callerParse spec) ∧
        x.callerParse spec = { x with caller := .returned (spec.accept reply), buffer := [] } := by
  cases S.phase with
  | asking A =>
    refine Or.inl ⟨?_, callerParse_nil A.buffer⟩
    rw [A.buffer]
    rfl
  | refused A =>
    refine Or.inl ⟨?_, callerParse_nil A.buffer⟩
    rw [A.buffer]
    rfl
  | @answered s reply r A =>
    have hsent := A.sent (EndPoint.left_atParse hpoint).2
    rw [List.append_assoc] at hsent
    have hinitial : x.buffer <+: r := (List.prefix_append _ _).trans hsent
    rcases parseFrame_prefix A.encoded hinitial with hmore | ⟨-, hdone⟩
    · refine Or.inl ⟨hmore, ?_⟩
      unfold RoundTrip.callerParse
      rw [hmore]
    · refine Or.inr ⟨s, reply, r, A.callerParse hpoint, ?_⟩
      unfold RoundTrip.callerParse
      rw [hdone]

theorem Smooth.move (S : Smooth h spec e x) (he : spec.request.encode = .ok e) {a : TripAction σ}
    (hok : undisturbed spec x a) (mv : TripMove h spec cap x a x') : Smooth h spec e x' := by
  have hphase := S.phase.move he mv
  have houtcome : ∀ v, x.caller = .returned v → Outcome h spec x' v :=
    fun v hv => (S.outcome v hv).move mv
  have hends : x.caller.isReturned = false → x.session = .ended →
      ∃ s reply, Refused h spec s reply x' := by
    intro hgoes hended
    obtain ⟨s, reply, A⟩ := S.sessionEnds hgoes hended
    exact ⟨s, reply, A.move mv⟩
  cases mv with
  | callerWrote hpoint hpos hn hroom =>
    exact ⟨hphase, nofun, S.sessionWaits, fun _ => hends (by rw [hpoint]; rfl), nofun⟩
  | callerParsed hpoint =>
    have hgoes := (EndPoint.left_atParse hpoint).2
    rcases S.callerParse hpoint with ⟨hmore, heq⟩ | ⟨s, reply, r, A, heq⟩
    · rw [heq] at hphase hends ⊢
      exact ⟨hphase, fun _ => hmore, S.sessionWaits, fun _ => hends hgoes, nofun⟩
    · rw [heq] at hphase A ⊢
      refine ⟨hphase, nofun, S.sessionWaits, nofun, fun v hv => ?_⟩
      exact Or.inl ⟨s, reply, r, A, (EndPoint.returned.inj hv).symm⟩
  | callerRead hpoint hpos hn =>
    exact ⟨hphase, nofun, S.sessionWaits, fun _ => hends (by rw [hpoint]; rfl), nofun⟩
  | callerEof hpoint hended hempty =>
    obtain ⟨s, reply, A⟩ := hends (by rw [hpoint]; rfl) hended
    refine ⟨hphase, nofun, S.sessionWaits, nofun, fun v hv => ?_⟩
    exact Or.inr ⟨s, reply, A, (EndPoint.returned.inj hv).symm⟩
  | callerRetried hpoint => exact S
  | callerReread hpoint hspec =>
    exact ⟨hphase, nofun, S.sessionWaits, fun _ => hends (by rw [hpoint]; rfl), nofun⟩
  | callerFailed hpoint ha => exact (undisturbed_not_failed hok ha).elim
  | sessionParsed hpoint =>
    cases S.phase with
    | asking A =>
      rcases A.sessionParse he with hmore | ⟨hrequests, hleft, s', reply, hreply, heq⟩
      · rw [sessionParse_more hmore] at hphase houtcome ⊢
        exact ⟨hphase, S.callerWaits, fun _ => hmore, fun _ => nofun, houtcome⟩
      · rw [heq] at hphase houtcome ⊢
        cases hencode : reply.encode with
        | ok r =>
          rw [hencode] at hphase houtcome
          exact ⟨hphase, S.callerWaits, nofun, fun _ => nofun, houtcome⟩
        | error status =>
          rw [hencode] at hphase houtcome
          refine ⟨hphase, S.callerWaits, nofun, fun _ _ => ⟨x.state, reply, ?_⟩, houtcome⟩
          exact ⟨rfl, hreply, ⟨status, hencode⟩, rfl, hleft, A.buffer, A.replies, A.result⟩
    | answered A =>
      have hmore : parseFrame x.readBuffer = .more := by
        rw [A.readBuffer]
        rfl
      rw [sessionParse_more hmore] at hphase houtcome ⊢
      exact ⟨hphase, S.callerWaits, fun _ => hmore, fun _ => nofun, houtcome⟩
    | refused A =>
      rw [A.ended] at hpoint
      cases hpoint
  | sessionWrote hpoint hpos hn hroom =>
    exact ⟨hphase, S.callerWaits, nofun, fun _ => nofun, houtcome⟩
  | sessionRead hpoint hpos hn =>
    exact ⟨hphase, S.callerWaits, nofun, fun _ => nofun, houtcome⟩
  | sessionEof hpoint hreturned hempty =>
    refine ⟨hphase, S.callerWaits, nofun, fun hgoes => ?_, houtcome⟩
    have hgoes : x.caller.isReturned = false := hgoes
    rw [hreturned] at hgoes
    cases hgoes
  | sessionRetried hpoint => exact S
  | sessionReread hpoint => exact ⟨hphase, S.callerWaits, nofun, fun _ => nofun, houtcome⟩
  | sessionFailed => exact hok.elim
  | other => exact ⟨hphase, S.callerWaits, S.sessionWaits, hends, houtcome⟩

/-- A session that has not seen the whole request can go on if there is something to read. -/
theorem Smooth.session_advances (S : Smooth h spec e x) (A : Asking e x)
    (hgoes : x.caller.isReturned = false) (hne : x.session = .reading → x.requests ≠ []) :
    ∃ a, a.advances = true ∧ (x.step h spec cap a).isSome = true := by
  cases hpoint : x.session with
  | parsing => exact ⟨.sessionParse, rfl, by simp [RoundTrip.step, hpoint, EndPoint.atParse]⟩
  | writing left =>
    have hleft := A.session
    rw [hpoint] at hleft
    have hempty : left = [] := hleft
    refine ⟨.sessionParse, rfl, ?_⟩
    simp [RoundTrip.step, hpoint, hempty, EndPoint.atParse]
  | reading =>
    refine ⟨.sessionRead 1, rfl, ?_⟩
    rw [RoundTrip.step, Option.isSome_map, hpoint]
    exact EndPoint.read_one (hne hpoint)
  | returned =>
    obtain ⟨s', reply, B⟩ := S.sessionEnds hgoes hpoint
    have hhandled := B.handled
    rw [A.handled] at hhandled
    cases hhandled

/-- The caller waits for a reply that is not complete: there is some of it to move. -/
theorem Smooth.reply_advances (S : Smooth h spec e x) (hcap : 0 < cap) {reply : Message} {r : Bytes}
    (A : Answered h spec s reply r x) (hpoint : x.caller = .reading) :
    ∃ a, a.advances = true ∧ (x.step h spec cap a).isSome = true := by
  have hgoes : x.caller.isReturned = false := by rw [hpoint]; rfl
  have hup : x.session ≠ .ended := by
    intro hended
    obtain ⟨s', reply', B⟩ := S.sessionEnds hgoes hended
    have hsame := A.handled.symm.trans B.handled
    cases hsame
    have hreply := A.answer.symm.trans B.answer
    cases hreply
    obtain ⟨status, herror⟩ := B.unencodable
    have hboth := A.encoded.symm.trans herror
    cases hboth
  have hwhole := A.whole hgoes hup
  by_cases hreplies : x.replies = []
  · rw [hreplies, List.append_nil] at hwhole
    cases hsession : x.session.left with
    | nil =>
      -- everything is in the buffer, so the caller would not wait
      rw [hsession, List.append_nil] at hwhole
      have hmore := S.callerWaits hpoint
      rcases parseFrame_prefix A.encoded (List.prefix_refl r) with hmore' | ⟨-, hdone⟩
      · have hparse := Protocol.tryParseFrame_encode A.encoded []
        rw [List.append_nil] at hparse
        rw [parseFrame_done.mpr hparse] at hmore'
        cases hmore'
      · rw [hwhole, hdone] at hmore
        cases hmore
    | cons b rest =>
      refine ⟨.sessionWrite 1, rfl, ?_⟩
      rw [RoundTrip.step, Option.isSome_map, EndPoint.writing_of_left hsession]
      exact EndPoint.write_one (by rw [hreplies]; exact hcap) b rest
  · refine ⟨.callerRead 1, rfl, ?_⟩
    rw [RoundTrip.step, Option.isSome_map, hpoint]
    exact EndPoint.read_one hreplies

/-- **No deadlock**: as long as the call has not returned, one of the threads can go on. -/
theorem Smooth.exists_advance (S : Smooth h spec e x) (he : spec.request.encode = .ok e)
    (hcap : 0 < cap) (hgoes : x.caller.isReturned = false) :
    ∃ a, a.advances = true ∧ (x.step h spec cap a).isSome = true := by
  cases hpoint : x.caller with
  | returned v =>
    rw [hpoint] at hgoes
    cases hgoes
  | parsing => exact ⟨.callerParse, rfl, by simp [RoundTrip.step, hpoint, EndPoint.atParse]⟩
  | writing left =>
    cases left with
    | nil => exact ⟨.callerParse, rfl, by simp [RoundTrip.step, hpoint, EndPoint.atParse]⟩
    | cons b left =>
      have A : Asking e x := by
        cases S.phase with
        | asking A => exact A
        | answered A =>
          have hleft := A.caller
          rw [hpoint] at hleft
          cases hleft
        | refused A =>
          have hleft := A.caller
          rw [hpoint] at hleft
          cases hleft
      by_cases hroom : x.requests.length + 1 ≤ cap
      · refine ⟨.callerWrite 1, rfl, ?_⟩
        rw [RoundTrip.step, Option.isSome_map, hpoint]
        exact EndPoint.write_one hroom b left
      · -- the stream is full: the session has something to read
        refine S.session_advances A hgoes fun _ hempty => ?_
        rw [hempty, List.length_nil] at hroom
        omega
  | reading =>
    cases S.phase with
    | asking A =>
      refine S.session_advances A hgoes fun hreading hempty => ?_
      -- nothing is on the way, so the session has the whole request and would not wait
      have hwhole := A.whole hgoes
      rw [hpoint, hempty, List.append_nil] at hwhole
      have hwhole' : x.readBuffer = e := (List.append_nil _).symm.trans hwhole
      have hparse := Protocol.tryParseFrame_encode he []
      rw [List.append_nil] at hparse
      have hmore := S.sessionWaits hreading
      rw [hwhole', parseFrame_done.mpr hparse] at hmore
      cases hmore
    | answered A => exact S.reply_advances hcap A hpoint
    | refused A =>
      refine ⟨.callerEof, rfl, ?_⟩
      simp [RoundTrip.step, hpoint, A.ended, A.replies]

/-! ### How long it takes -/

/-- The steps that a thread has before it, the bytes it reads apart. -/
def EndPoint.cost {ρ : Type} : EndPoint ρ → Nat
  | .writing left => 4 * left.length + 2
  | .parsing => 2
  | .reading => 1
  | .returned _ => 0

namespace EndPoint

variable {ρ : Type}

@[simp] theorem cost_writing (left : Bytes) :
    (writing left : EndPoint ρ).cost = 4 * left.length + 2 := rfl

@[simp] theorem cost_parsing : (parsing : EndPoint ρ).cost = 2 := rfl

@[simp] theorem cost_reading : (reading : EndPoint ρ).cost = 1 := rfl

@[simp] theorem cost_returned (result : ρ) : (returned result).cost = 0 := rfl

theorem cost_atParse {point : EndPoint ρ} (h : point.atParse = true) : point.cost = 2 := by
  cases point with
  | writing left =>
    cases left with
    | nil => rfl
    | cons b left => cases h
  | parsing => rfl
  | reading => cases h
  | returned result => cases h

end EndPoint

/-- The largest frame. -/
def maxFrame : Nat := Protocol.kFrameHeaderSize + Protocol.kMaxPayloadSize

/-- A bound for the steps that are left: each byte is written once and read once. -/
def RoundTrip.cost (x : RoundTrip σ R) : Nat :=
  x.caller.cost + 3 * x.requests.length + 3 * x.replies.length + x.session.cost +
    if x.handled.isEmpty then 4 * maxFrame + 1 else 0

theorem encode_length {m : Message} {r : Bytes} (hr : m.encode = .ok r) : r.length ≤ maxFrame := by
  obtain ⟨-, hsize, rfl⟩ := Protocol.Message.encode_iff.mp hr
  rw [List.length_append, Protocol.header_length]
  exact Nat.add_le_add_left hsize _

/-- The length of the frame of a message, 0 if none can hold it. -/
def frameLength (m : Message) : Nat :=
  match m.encode with
  | .ok encoded => encoded.length
  | .error _ => 0

theorem frameLength_eq {m : Message} (he : m.encode = .ok e) : frameLength m = e.length := by
  rw [frameLength, he]

/-- **Every step that gets further lowers the cost**, if parsing does; an interruption raises it by
at most one. -/
theorem cost_move {a : TripAction σ} (hok : undisturbed spec x a) (mv : TripMove h spec cap x a x')
    (hcaller : x.caller.atParse = true → (x.callerParse spec).cost + 1 ≤ x.cost)
    (hsession : x.session.atParse = true → (x.sessionParse h).cost + 1 ≤ x.cost) :
    x'.cost + a.advances.toNat ≤ x.cost + a.interrupts.toNat := by
  cases mv with
  | callerWrote hpoint hpos hn hroom =>
    show RoundTrip.cost _ + 1 ≤ x.cost + 0
    simp only [RoundTrip.cost, hpoint, EndPoint.cost_writing, List.length_append, List.length_take,
      List.length_drop]
    omega
  | callerParsed hpoint => exact hcaller hpoint
  | callerRead hpoint hpos hn =>
    show RoundTrip.cost _ + 1 ≤ x.cost + 0
    simp only [RoundTrip.cost, hpoint, EndPoint.cost_reading, EndPoint.cost_parsing,
      List.length_drop]
    omega
  | callerEof hpoint hended hempty =>
    show RoundTrip.cost _ + 1 ≤ x.cost + 0
    simp only [RoundTrip.cost, hpoint, EndPoint.cost_reading, EndPoint.cost_returned]
    omega
  | callerRetried hpoint => simp [TripAction.advances, TripAction.interrupts]
  | callerReread hpoint hspec =>
    show RoundTrip.cost _ + 0 ≤ x.cost + 1
    simp only [RoundTrip.cost, hpoint, EndPoint.cost_reading, EndPoint.cost_parsing]
    omega
  | callerFailed hpoint ha => exact (undisturbed_not_failed hok ha).elim
  | sessionParsed hpoint => exact hsession hpoint
  | sessionWrote hpoint hpos hn hroom =>
    show RoundTrip.cost _ + 1 ≤ x.cost + 0
    simp only [RoundTrip.cost, hpoint, EndPoint.cost_writing, List.length_append, List.length_take,
      List.length_drop]
    omega
  | sessionRead hpoint hpos hn =>
    show RoundTrip.cost _ + 1 ≤ x.cost + 0
    simp only [RoundTrip.cost, hpoint, EndPoint.cost_reading, EndPoint.cost_parsing,
      List.length_drop]
    omega
  | sessionEof hpoint hreturned hempty =>
    show RoundTrip.cost _ + 1 ≤ x.cost + 0
    simp only [RoundTrip.cost, hpoint, EndPoint.cost_reading, EndPoint.cost_returned]
    omega
  | sessionRetried hpoint => simp [TripAction.advances, TripAction.interrupts]
  | sessionReread hpoint =>
    show RoundTrip.cost _ + 0 ≤ x.cost + 1
    simp only [RoundTrip.cost, hpoint, EndPoint.cost_reading, EndPoint.cost_parsing]
    omega
  | sessionFailed => exact hok.elim
  | other => exact Nat.le_refl _

/-- A thread that finds no whole frame goes on to `read`. -/
theorem cost_session_waits (hpoint : x.session.atParse = true)
    (hmore : parseFrame x.readBuffer = .more) : (x.sessionParse h).cost + 1 ≤ x.cost := by
  rw [sessionParse_more hmore]
  simp only [RoundTrip.cost, EndPoint.cost_atParse hpoint, EndPoint.cost_reading]
  omega

theorem Smooth.cost_callerParse (S : Smooth h spec e x) (hpoint : x.caller.atParse = true) :
    (x.callerParse spec).cost + 1 ≤ x.cost := by
  have hcost := EndPoint.cost_atParse hpoint
  rcases S.callerParse hpoint with ⟨-, heq⟩ | ⟨s, reply, r, -, heq⟩
  · rw [heq]
    simp only [RoundTrip.cost, hcost, EndPoint.cost_reading]
    omega
  · rw [heq]
    simp only [RoundTrip.cost, hcost, EndPoint.cost_returned]
    omega

theorem Smooth.cost_sessionParse (S : Smooth h spec e x) (he : spec.request.encode = .ok e)
    (hpoint : x.session.atParse = true) : (x.sessionParse h).cost + 1 ≤ x.cost := by
  have hcost := EndPoint.cost_atParse hpoint
  cases S.phase with
  | asking A =>
    rcases A.sessionParse he with hmore | ⟨-, -, s', reply, -, heq⟩
    · exact cost_session_waits hpoint hmore
    · -- the reply is paid for by what was set aside for it
      rw [heq]
      cases hencode : reply.encode with
      | ok r =>
        have hlength := encode_length hencode
        simp only [RoundTrip.cost, hcost, SessionPoint.behind, EndPoint.cost_writing, A.handled,
          List.isEmpty_nil, List.isEmpty_cons, if_true, Bool.false_eq_true, if_false]
        omega
      | error status =>
        simp only [RoundTrip.cost, hcost, SessionPoint.behind, EndPoint.cost_returned, A.handled,
          List.isEmpty_nil, List.isEmpty_cons, if_true, Bool.false_eq_true, if_false]
        omega
  | answered A => exact cost_session_waits hpoint (by rw [A.readBuffer]; rfl)
  | refused A =>
    rw [A.ended] at hpoint
    cases hpoint

/-- **A call that cannot be sent has returned**, and the session ends soon. -/
theorem unsent_completes {status : Status} (he : spec.request.encode = .error status)
    (as : List (TripAction σ))
    (hexec : Runs.exec (RoundTrip.step h spec cap) (undisturbed spec) (RoundTrip.start spec s) as =
      some x) :
    as.countP TripAction.advances ≤
        4 * frameLength spec.request + 4 * maxFrame + 5 + as.countP TripAction.interrupts ∧
      Unsent status x := by
  have hstart : (RoundTrip.start spec s : RoundTrip σ R) =
      { caller := .returned (.error status), state := s } := by
    unfold RoundTrip.start
    rw [he]
  have hcost : (RoundTrip.start spec s : RoundTrip σ R).cost = 4 * maxFrame + 3 := by
    rw [hstart]
    simp only [RoundTrip.cost, EndPoint.cost_returned, EndPoint.cost_parsing, List.isEmpty_nil,
      if_true, List.length_nil]
    omega
  have hstep : ∀ (y : RoundTrip σ R) a y', Unsent status y → undisturbed spec y a →
      y.step h spec cap a = some y' →
      Unsent status y' ∧ y'.cost + a.advances.toNat ≤ y.cost + a.interrupts.toNat := by
    intro y a y' U hok hs
    refine ⟨U.move (trip_move hs), cost_move hok (trip_move hs) (fun hpoint => ?_) fun hpoint => ?_⟩
    · rw [U.caller] at hpoint
      cases hpoint
    · exact cost_session_waits hpoint (by rw [U.readBuffer]; rfl)
  have hunsent : Unsent status (RoundTrip.start spec s : RoundTrip σ R) := by
    rw [hstart]
    exact ⟨rfl, rfl, rfl, rfl⟩
  obtain ⟨U, hle⟩ := Runs.countP_le_add_of_exec hstep as hunsent hexec
  exact ⟨by omega, U⟩

/-- **Undisturbed calls come to an end**, and to the right one. -/
theorem trip_completes (hcap : 0 < cap) (he : spec.request.encode = .ok e)
    (as : List (TripAction σ))
    (hexec : Runs.exec (RoundTrip.step h spec cap) (undisturbed spec) (RoundTrip.start spec s) as =
      some x) :
    as.countP TripAction.advances ≤
        4 * frameLength spec.request + 4 * maxFrame + 5 + as.countP TripAction.interrupts ∧
      ((∀ a, a.advances = true → x.step h spec cap a = none) →
        ∃ v, x.caller = .returned v ∧ Outcome h spec x v) := by
  have hstart : Smooth h spec e (RoundTrip.start spec s : RoundTrip σ R) := by
    rw [start_eq he]
    exact ⟨.asking ⟨rfl, List.prefix_rfl, fun _ => rfl, rfl, rfl, rfl, nofun⟩, nofun, nofun,
      fun _ => nofun, nofun⟩
  have hcost : (RoundTrip.start spec s : RoundTrip σ R).cost = 4 * e.length + 4 * maxFrame + 5 := by
    rw [start_eq he]
    simp only [RoundTrip.cost, EndPoint.cost_writing, EndPoint.cost_parsing, List.isEmpty_nil,
      if_true, List.length_nil]
    omega
  have hstep : ∀ (y : RoundTrip σ R) a y', Smooth h spec e y → undisturbed spec y a →
      y.step h spec cap a = some y' →
      Smooth h spec e y' ∧ y'.cost + a.advances.toNat ≤ y.cost + a.interrupts.toNat := by
    intro y a y' S hok hs
    exact ⟨S.move he hok (trip_move hs),
      cost_move hok (trip_move hs) S.cost_callerParse (S.cost_sessionParse he)⟩
  obtain ⟨S, hle⟩ := Runs.countP_le_add_of_exec hstep as hstart hexec
  refine ⟨by rw [frameLength_eq he]; omega, fun hstuck => ?_⟩
  have hreturned : x.caller.isReturned = true := by
    rw [← Bool.not_eq_false]
    intro hgoes
    obtain ⟨a, hadvances, hsome⟩ :
        ∃ a, a.advances = true ∧ (x.step h spec cap a).isSome = true :=
      S.exists_advance he hcap hgoes
    rw [hstuck a hadvances] at hsome
    cases hsome
  cases hpoint : x.caller with
  | returned v => exact ⟨v, rfl, S.outcome v hpoint⟩
  | writing left => rw [hpoint] at hreturned; cases hreturned
  | parsing => rw [hpoint] at hreturned; cases hreturned
  | reading => rw [hpoint] at hreturned; cases hreturned

/-- What a call leaves when it can go no further. -/
def Finished (h : RequestHandler σ) (spec : CallSpec R) (x : RoundTrip σ R) : Prop :=
  (∀ status, spec.request.encode = .error status →
      x.handled = [] ∧ x.caller = .returned (.error status)) ∧
    ∀ e, spec.request.encode = .ok e → ∃ s' reply, x.handled = [(s', spec.request)] ∧
      h.reply s' spec.request = some reply ∧
      x.caller = .returned (if reply.encode.isOk then spec.accept reply else .error spec.closed)

/-- **Both kinds of requests**, those that can be sent and those that cannot. -/
theorem call_finishes (hcap : 0 < cap) (as : List (TripAction σ))
    (hexec : Runs.exec (RoundTrip.step h spec cap) (undisturbed spec) (RoundTrip.start spec s) as =
      some x) :
    as.countP TripAction.advances ≤
        4 * frameLength spec.request + 4 * maxFrame + 5 + as.countP TripAction.interrupts ∧
      ((∀ a, a.advances = true → x.step h spec cap a = none) → Finished h spec x) := by
  cases hencode : spec.request.encode with
  | error status =>
    obtain ⟨hbound, U⟩ := unsent_completes hencode as hexec
    refine ⟨hbound, fun _ => ⟨fun status' h' => ?_, fun e he => ?_⟩⟩
    · rw [hencode] at h'
      cases h'
      exact ⟨U.handled, U.caller⟩
    · rw [hencode] at he
      cases he
  | ok e =>
    obtain ⟨hbound, hends⟩ := trip_completes hcap hencode as hexec
    refine ⟨hbound, fun hstuck => ⟨fun status h' => ?_, fun e' _ => ?_⟩⟩
    · rw [hencode] at h'
      cases h'
    · obtain ⟨v, hv, ⟨s', reply, r, A, rfl⟩ | ⟨s', reply, A, rfl⟩⟩ := hends hstuck
      · refine ⟨s', reply, A.handled, A.answer, ?_⟩
        rw [hv, A.encoded]
        rfl
      · obtain ⟨status, hfails⟩ := A.unencodable
        refine ⟨s', reply, A.handled, A.answer, ?_⟩
        rw [hv, hfails]
        rfl

end Completion

/-- **The two ends never wait for each other.**  With socket buffers of any size but zero, every
schedule in which no `read` or `write` fails has a bounded number of steps besides interruptions,
each of which allows one more, and where it cannot go further the call has returned: with the
handler's answer, or, if that does not fit into a frame, with the error of a connection that was
closed.  A request that does not fit into a frame is not sent, and the call returns the error of the
encoder. -/
theorem call_completes {σ : Type} (h : RequestHandler σ) {cap : Nat} (hcap : 0 < cap) (s : σ) :
    (∀ (req : ClusterRequest) as x,
      Runs.exec (RoundTrip.step h (sendRpcCall req) cap) (undisturbed (sendRpcCall req))
        (RoundTrip.start (sendRpcCall req) s) as = some x →
      as.countP TripAction.advances ≤ 4 * frameLength (.clusterRequest req) + 4 * maxFrame + 5 +
          as.countP TripAction.interrupts ∧
        ((∀ a, a.advances = true → x.step h (sendRpcCall req) cap a = none) →
          (∀ status, Protocol.encodeClusterRequest req = .error status →
            x.handled = [] ∧ x.caller = .returned (.error status)) ∧
          ∀ e, Protocol.encodeClusterRequest req = .ok e →
            ∃ s', x.handled = [(s', .clusterRequest req)] ∧
              x.caller = .returned
                (if (Protocol.encodeClusterResponse (h.handleCluster s' req).2).isOk then
                  .ok (h.handleCluster s' req).2
                else .error ⟨.kIOError, "connection closed while awaiting cluster response"⟩))) ∧
    ∀ (req : Protocol.ClientRequest) as x,
      Runs.exec (RoundTrip.step h (sendRequestCall req) cap) (undisturbed (sendRequestCall req))
        (RoundTrip.start (sendRequestCall req) s) as = some x →
      as.countP TripAction.advances ≤ 4 * frameLength (.clientRequest req) + 4 * maxFrame + 5 +
          as.countP TripAction.interrupts ∧
        ((∀ a, a.advances = true → x.step h (sendRequestCall req) cap a = none) →
          (∀ status, Protocol.encodeClientRequest req = .error status →
            x.handled = [] ∧ x.caller = .returned (.error status)) ∧
          ∀ e, Protocol.encodeClientRequest req = .ok e →
            ∃ s', x.handled = [(s', .clientRequest req)] ∧
              x.caller = .returned
                (if (Protocol.encodeClientResponse (h.handle s' req).2).isOk then
                  .ok (h.handle s' req).2
                else .error ⟨.kIOError, "connection closed before response received"⟩)) := by
  constructor
  · intro req as x hexec
    obtain ⟨hbound, hends⟩ := call_finishes hcap as hexec
    refine ⟨hbound, fun hstuck => ⟨(hends hstuck).1, fun e he => ?_⟩⟩
    obtain ⟨s', reply, hhandled, hreply, hresult⟩ := (hends hstuck).2 e he
    cases hreply
    exact ⟨s', hhandled, hresult⟩
  · intro req as x hexec
    obtain ⟨hbound, hends⟩ := call_finishes hcap as hexec
    refine ⟨hbound, fun hstuck => ⟨(hends hstuck).1, fun e he => ?_⟩⟩
    obtain ⟨s', reply, hhandled, hreply, hresult⟩ := (hends hstuck).2 e he
    cases hreply
    exact ⟨s', hhandled, hresult⟩

/-- Both ends of a connection that is closed have nothing left to do. -/
theorem closed_stuck {σ R : Type} {h : RequestHandler σ} {spec : CallSpec R} {cap : Nat}
    {x : RoundTrip σ R} {v : Except Status R} (hcaller : x.caller = .returned v)
    (hsession : x.session = .ended) (a : TripAction σ) (ha : a.advances = true) :
    x.step h spec cap a = none := by
  cases a <;> simp_all [RoundTrip.step, TripAction.advances, EndPoint.write, EndPoint.read,
    EndPoint.atParse]

/-- The same `PING`, up to the end of the session. -/
theorem call_completes_ping : ∃ x s',
    Runs.exec (RoundTrip.step countingHandler (sendRpcCall { requestId := 3 }) 16)
        (undisturbed (sendRpcCall { requestId := 3 }))
        (RoundTrip.start (sendRpcCall { requestId := 3 }) 0) (pingActions ++ [.sessionEof]) =
      some x ∧ x.handled = [(s', .clusterRequest { requestId := 3 })] ∧
    x.caller = .returned (.ok { requestId := 3, status := .kBadRequest }) := by
  obtain ⟨x, hexec, hx⟩ : ∃ x,
      Runs.exec (RoundTrip.step countingHandler (sendRpcCall { requestId := 3 }) 16)
          (undisturbed (sendRpcCall { requestId := 3 }))
          (RoundTrip.start (sendRpcCall { requestId := 3 }) 0) (pingActions ++ [.sessionEof]) =
        some x ∧
      (decide (x.caller = .returned (.ok { requestId := 3, status := .kBadRequest })) &&
        decide (x.session = .ended)) = true :=
    Runs.exists_of_any (by decide +kernel)
  obtain ⟨hcaller, hsession⟩ := Bool.and_eq_true_iff.mp hx
  obtain ⟨e, he⟩ : ∃ e, Protocol.encodeClusterRequest { requestId := 3 } = .ok e := ⟨_, rfl⟩
  have hends := ((call_completes countingHandler (by decide) 0).1 { requestId := 3 } _ x hexec).2
  obtain ⟨s', hhandled, hresult⟩ :=
    (hends (closed_stuck (of_decide_eq_true hcaller) (of_decide_eq_true hsession))).2 e he
  exact ⟨x, s', hexec, hhandled, hresult⟩

end NeuralKV
