import NeuralKV.Lib.Incremental
import NeuralKV.Protocol.Codec

/-!
# A client session

Model of `ServeClientSession` of `src/server/connection_session.cpp`.  What `read` returns is a
list; the request handler and the socket that is written to are state machines over one state `σ`,
with nothing assumed of them.

* `frameReaction` — the body of the inner loop after a frame was parsed.  `ProcessFrames` of
  `src/net/connection.cpp` has the same body, with a queue in the place of the socket.
* `serveClientSession` — the two loops.
* `serveClientSession_stream` — **a session is a function of the bytes it receives**;
  `session_chunks` says what that means for two ways of cutting a stream.
-/

set_option autoImplicit false

namespace NeuralKV

open Protocol (Message tryParseFrame encodeClientResponse encodeClusterResponse)
open Incremental

/-- `RequestHandler` as a connection sees it; `σ` is all the state behind it. -/
structure RequestHandler (σ : Type) where
  handle : σ → Protocol.ClientRequest → σ × Protocol.ClientResponse
  handleCluster : σ → Protocol.ClusterRequest → σ × Protocol.ClusterResponse

variable {σ : Type}

/-- The handler's answer to a message, encoded; `none` for a response-typed frame, which "has no
business arriving here". -/
def RequestHandler.answer (h : RequestHandler σ) (s : σ) :
    Message → Option (σ × Except Status Bytes)
  | .clientRequest req => some ((h.handle s req).1, encodeClientResponse (h.handle s req).2)
  | .clusterRequest req =>
    some ((h.handleCluster s req).1, encodeClusterResponse (h.handleCluster s req).2)
  | .clientResponse _ => none
  | .clusterResponse _ => none

/-- What a session does that can be seen from outside: a request passed to the handler, a response
passed on. -/
inductive SessionEvent where
  | handled (m : Message)
  | wrote (encoded : Bytes)
  deriving DecidableEq, Repr

/-- The loop body for one frame.  `write` passes the response on and says whether that worked. -/
def frameReaction (h : RequestHandler σ) (write : σ → Bytes → σ × Bool) (s : σ) (m : Message) :
    Reaction σ SessionEvent :=
  match h.answer s m with
  | none => ⟨s, [], false⟩
  | some (s', .error _) => ⟨s', [.handled m], false⟩
  | some (s', .ok encoded) =>
    ⟨(write s' encoded).1, [.handled m, .wrote encoded], (write s' encoded).2⟩

/-- `TryParseFrame` as an incremental parser. -/
def parseFrame (buffer : Bytes) : Parse UInt8 Message :=
  match tryParseFrame buffer with
  | (.kNeedMore, _) => .more
  | (.kComplete m, rest) => .done m rest
  | (.kError, _) => .bad

/-- The inner loop: parse and answer until more bytes are needed or the session ends. -/
def frameLoop (h : RequestHandler σ) (write : σ → Bytes → σ × Bool) (s : σ) (buffer : Bytes) :
    Drained UInt8 σ SessionEvent :=
  drainAll parseFrame (frameReaction h write) s buffer

/-- What a call of `read` returns: bytes, `EINTR`, `0`, or another error. -/
inductive ReadResult where
  | data (chunk : Bytes)
  | interrupted
  | eof
  | failed
  deriving DecidableEq, Repr

/-- `ServeClientSession` from the head of the outer loop; with no read left it is blocked in
`read`. -/
def serveClientSession (h : RequestHandler σ) (write : σ → Bytes → σ × Bool)
    (reads : List ReadResult) (s : σ) (readBuffer : Bytes) : σ × List SessionEvent :=
  let d := frameLoop h write s readBuffer
  match d.buffer, reads with
  | none, _ => (d.state, d.out)
  | some _, [] => (d.state, d.out)
  | some readBuffer, .data chunk :: reads =>
    let r := serveClientSession h write reads d.state (readBuffer ++ chunk)
    (r.1, d.out ++ r.2)
  | some readBuffer, .interrupted :: reads =>
    let r := serveClientSession h write reads d.state readBuffer
    (r.1, d.out ++ r.2)
  | some _, .eof :: _ => (d.state, d.out)
  | some _, .failed :: _ => (d.state, d.out)

/-! ## The parser is incremental -/

theorem parseFrame_done {buffer rest : Bytes} {m : Message} :
    parseFrame buffer = .done m rest ↔ tryParseFrame buffer = (.kComplete m, rest) := by
  unfold parseFrame
  split <;> rename_i heq <;> simp [heq]

theorem parseFrame_bad {buffer : Bytes} :
    parseFrame buffer = .bad ↔ ∃ rest, tryParseFrame buffer = (.kError, rest) := by
  unfold parseFrame
  split <;> rename_i heq <;> simp [heq]

theorem parseFrame_stable : Stable parseFrame where
  done h x := parseFrame_done.mpr (Protocol.tryParseFrame_complete_append (parseFrame_done.mp h) x)
  bad h x := by
    obtain ⟨rest, herror⟩ := parseFrame_bad.mp h
    exact parseFrame_bad.mpr ⟨[], Protocol.tryParseFrame_error_append herror x⟩
  shrinks h := Protocol.tryParseFrame_complete_length (parseFrame_done.mp h)

/-! ## Sessions and streams -/

/-- The bytes that reads deliver. -/
def received : List ReadResult → Bytes
  | [] => []
  | .data chunk :: reads => chunk ++ received reads
  | _ :: reads => received reads

/-- Reads after which the session goes on. -/
def ReadResult.Continues : ReadResult → Prop
  | .data chunk => chunk ≠ []
  | .interrupted => True
  | .eof => False
  | .failed => False

instance (r : ReadResult) : Decidable r.Continues := by
  cases r <;> unfold ReadResult.Continues <;> infer_instance

/-- **A session is a function of the bytes it receives.** -/
theorem serveClientSession_stream (h : RequestHandler σ) (write : σ → Bytes → σ × Bool) :
    ∀ (reads : List ReadResult), (∀ r ∈ reads, r.Continues) → ∀ (s : σ) (readBuffer : Bytes),
      serveClientSession h write (reads ++ [.eof]) s readBuffer =
        ((frameLoop h write s (readBuffer ++ received reads)).state,
          (frameLoop h write s (readBuffer ++ received reads)).out) := by
  intro reads
  induction reads with
  | nil =>
    intro _ s readBuffer
    rw [serveClientSession.eq_def]
    cases hbuffer : (frameLoop h write s readBuffer).buffer with
    | none => simp only [hbuffer, received, List.append_nil]
    | some rest => simp only [hbuffer, received, List.append_nil, List.nil_append]
  | cons r reads ih =>
    intro hgo s readBuffer
    have hreads := ih fun q hq => hgo q (List.mem_cons_of_mem _ hq)
    have hr := hgo r List.mem_cons_self
    rw [serveClientSession.eq_def]
    unfold frameLoop at hreads ⊢
    rw [drainAll_append parseFrame_stable]
    cases hbuffer : (drainAll parseFrame (frameReaction h write) s readBuffer).buffer with
    | none => simp only [Drained.more, hbuffer]
    | some rest =>
      cases r with
      | data chunk =>
        simp only [Drained.more, Drained.after, hbuffer, List.cons_append, hreads, received,
          List.append_assoc]
      | interrupted =>
        simp only [Drained.more, Drained.after, hbuffer, List.cons_append, hreads, received]
      | eof => cases hr
      | failed => cases hr

/-- **How the stream is cut into reads does not matter**: the session passes the same requests to
the handler, writes the same bytes and leaves the same state behind.  The reason is the parser: its
verdicts do not depend on what follows, and it leaves an unfinished frame where it is. -/
theorem session_chunks (h : RequestHandler σ) (write : σ → Bytes → σ × Bool) (s : σ)
    {reads₁ reads₂ : List ReadResult} (h₁ : ∀ r ∈ reads₁, r.Continues)
    (h₂ : ∀ r ∈ reads₂, r.Continues) (hstream : received reads₁ = received reads₂) :
    serveClientSession h write (reads₁ ++ [.eof]) s [] =
        serveClientSession h write (reads₂ ++ [.eof]) s [] ∧
      ∀ b x rest : Bytes,
        (∀ m, tryParseFrame b = (.kComplete m, rest) →
          tryParseFrame (b ++ x) = (.kComplete m, rest ++ x)) ∧
        (tryParseFrame b = (.kError, rest) → tryParseFrame (b ++ x) = (.kError, rest)) ∧
        (tryParseFrame b = (.kNeedMore, rest) → rest = b) := by
  constructor
  · rw [serveClientSession_stream h write reads₁ h₁, serveClientSession_stream h write reads₂ h₂,
      hstream]
  · intro b x rest
    refine ⟨?_, ?_, ?_⟩
    · intro m hm
      exact Protocol.tryParseFrame_complete_append hm x
    · intro herror
      rw [Protocol.tryParseFrame_error_rest herror]
      exact Protocol.tryParseFrame_error_append herror x
    · exact Protocol.tryParseFrame_needMore

/-- A handler that counts its calls and finds nothing. -/
def countingHandler : RequestHandler Nat where
  handle n req := (n + 1, { requestId := req.requestId, status := .kNotFound })
  handleCluster n req := (n + 1, { requestId := req.requestId, status := .kBadRequest })

/-- GET `a`, request id 7. -/
def getFrame : Bytes :=
  Protocol.header Protocol.kMagic Protocol.kProtocolVersion 1 18 ++
    [0, 0, 0, 0, 0, 0, 0, 7, 2, 0, 0, 0, 1, 97, 0, 0, 0, 0]

/-- Two requests and a broken frame, in one read and in three with an interruption. -/
theorem session_chunks_pipelined :
    (serveClientSession countingHandler (fun n _ => (n, true))
        [.data (getFrame ++ getFrame ++ [1, 2, 3, 4, 5, 6, 7, 8]), .eof] 0 []).1 = 2 ∧
      serveClientSession countingHandler (fun n _ => (n, true))
          [.data (getFrame ++ getFrame ++ [1, 2, 3, 4, 5, 6, 7, 8]), .eof] 0 [] =
        serveClientSession countingHandler (fun n _ => (n, true))
          [.data (getFrame.take 5), .interrupted, .data (getFrame.drop 5 ++ getFrame.take 20),
            .data (getFrame.drop 20 ++ [1, 2, 3, 4, 5, 6, 7, 8]), .eof] 0 [] := by
  have hstream : received [.data (getFrame ++ getFrame ++ [1, 2, 3, 4, 5, 6, 7, 8])] =
      received [.data (getFrame.take 5), .interrupted,
        .data (getFrame.drop 5 ++ getFrame.take 20),
        .data (getFrame.drop 20 ++ [1, 2, 3, 4, 5, 6, 7, 8])] := by decide
  refine ⟨by decide +kernel, ?_⟩
  exact (session_chunks countingHandler (fun n _ => (n, true)) 0 (by decide) (by decide) hstream).1

end NeuralKV
