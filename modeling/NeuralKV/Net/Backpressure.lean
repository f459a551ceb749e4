import NeuralKV.Server.Answers
import NeuralKV.Server.Rpc

/-!
# How much output a connection queues

`WantedEvents` stops asking for input once `kBackpressureThreshold` bytes are queued, "so a slow
client can't make the server buffer unbounded response data in its favor".  The threshold is looked
at between events only: `OnReadable` reads all there is and answers every complete frame.

* `Queueing` — one connection under any events that `WantedEvents` allows, with any requests, any
  handler, and other connections changing the state behind it.
* `queue_bounded` — **the queue stays below the threshold plus one response frame in every run in
  which no readable event finds more than one complete frame.**
* `two_gets_overflow` — a value of the largest size, and two requests for it in one read.
-/

set_option autoImplicit false

namespace NeuralKV

open Protocol (tryParseFrame encodeClientRequest encodeClientResponse kFrameHeaderSize
  kMaxPayloadSize)
open Incremental
open Runs (anyStep exec exists_run)

variable {σ : Type}

/-! ## The connection -/

/-- The bytes that the loop of `OnReadable` takes from the socket. -/
def taken : List ReadResult → Bytes
  | [] => []
  | .data chunk :: reads => chunk ++ taken reads
  | .interrupted :: reads => taken reads
  | .eof :: _ => []
  | .failed :: _ => []

/-- The largest `write_buffer_` while an event is handled: `OnReadable` adds to it, and what comes
after only takes from it. -/
def Connection.queueDuring (h : RequestHandler σ) (ev : ReadyEvent) (world : σ)
    (conn : Connection) : Nat :=
  if !ev.hangup && ev.input then (conn.onReadable h world ev.reads).2.writeBuffer.length
  else conn.writeBuffer.length

/-- A connection in the event loop.  `peak` is a history variable: the largest `write_buffer_` so
far. -/
structure Queueing (σ : Type) where
  world : σ
  conn : Option Connection := some {}
  peak : Nat := 0

/-- An event on the connection, or something else that changes the state behind the handler. -/
inductive LoopAction (σ : Type) where
  | event (ev : ReadyEvent)
  | elsewhere (world : σ)

namespace Queueing

/-- One turn of the loop; only events that `WantedEvents` has asked for are reported, and errors. -/
def step (h : RequestHandler σ) (s : Queueing σ) : LoopAction σ → Option (Queueing σ)
  | .elsewhere world => some { s with world := world }
  | .event ev =>
    match s.conn with
    | none => none
    | some conn =>
      if (ev.input = true → conn.wantsInput = true) ∧
          (ev.output = true → conn.wantsOutput = true) then
        some
          { world := (handleEvent h ev s.world conn).1
            conn := (handleEvent h ev s.world conn).2.1
            peak := max s.peak (conn.queueDuring h ev s.world) }
      else none

end Queueing

/-- `kBackpressureThreshold` and one maximal response frame. -/
def maxQueued : Nat := kBackpressureThreshold + (kFrameHeaderSize + kMaxPayloadSize)

/-- The buffer does not begin with two complete frames. -/
def atMostOneFrame (buffer : Bytes) : Prop :=
  match tryParseFrame buffer with
  | (.kComplete _, rest) =>
    match tryParseFrame rest with
    | (.kComplete _, _) => False
    | _ => True
  | _ => True

instance (buffer : Bytes) : Decidable (atMostOneFrame buffer) := by
  unfold atMostOneFrame
  split
  · split <;> infer_instance
  · infer_instance

/-- A readable event finds at most one complete frame, in what was left over and what it reads. -/
def oneFrameAtATime (s : Queueing σ) : LoopAction σ → Prop
  | .event ev => ∀ conn ∈ s.conn, ev.input = true →
      atMostOneFrame (conn.readBuffer ++ taken ev.reads)
  | .elsewhere _ => True

instance (s : Queueing σ) (a : LoopAction σ) : Decidable (oneFrameAtATime s a) := by
  unfold oneFrameAtATime
  split <;> infer_instance

/-! ## One event -/

section Event

variable {h : RequestHandler σ}

theorem answer_length {s s' : σ} {m : Protocol.Message} {encoded : Bytes}
    (ha : h.answer s m = some (s', .ok encoded)) :
    encoded.length ≤ kFrameHeaderSize + kMaxPayloadSize := by
  have frame : ∀ {type : Protocol.MessageType} {payload : Bytes} {size : Nat},
      payload.length = size → Protocol.encodeFrame type size payload = .ok encoded →
        encoded.length ≤ kFrameHeaderSize + kMaxPayloadSize := by
    intro type payload size hlen henc
    obtain ⟨hsize, rfl⟩ := Protocol.encodeFrame_ok.mp henc
    rw [List.length_append, Protocol.header_length, hlen]
    omega
  cases m with
  | clientRequest req =>
    obtain ⟨_, henc⟩ := Prod.mk.inj (Option.some.inj ha)
    exact frame (Protocol.ClientResponse.payload_length _) henc
  | clusterRequest req =>
    obtain ⟨_, henc⟩ := Prod.mk.inj (Option.some.inj ha)
    exact frame (Protocol.ClusterResponse.payload_length _) henc
  | clientResponse _ => cases ha
  | clusterResponse _ => cases ha

/-- One frame adds at most one response. -/
theorem written_frameReaction (s : σ) (m : Protocol.Message) :
    (written (frameReaction h accepting s m).out).length ≤ kFrameHeaderSize + kMaxPayloadSize := by
  unfold frameReaction
  cases ha : h.answer s m with
  | none => exact Nat.zero_le _
  | some r =>
    obtain ⟨s', result⟩ := r
    cases result with
    | error _ => exact Nat.zero_le _
    | ok encoded =>
      show (encoded ++ []).length ≤ _
      rw [List.append_nil]
      exact answer_length ha

theorem written_frameLoop_nil {s : σ} {buffer : Bytes}
    (hnone : ∀ m rest, tryParseFrame buffer ≠ (.kComplete m, rest)) :
    written (frameLoop h accepting s buffer).out = [] := by
  unfold frameLoop
  cases hparse : parseFrame buffer with
  | more => rw [drainAll_more hparse]; rfl
  | bad => rw [drainAll_bad hparse]; rfl
  | done m rest => exact absurd (parseFrame_done.mp hparse) (hnone m rest)

theorem written_frameLoop {s : σ} {buffer : Bytes} (hone : atMostOneFrame buffer) :
    (written (frameLoop h accepting s buffer).out).length ≤ kFrameHeaderSize + kMaxPayloadSize := by
  cases hparse : tryParseFrame buffer with
  | mk result rest =>
    unfold atMostOneFrame at hone
    rw [hparse] at hone
    cases result with
    | kNeedMore =>
      rw [written_frameLoop_nil (by simp [hparse])]
      exact Nat.zero_le _
    | kError =>
      rw [written_frameLoop_nil (by simp [hparse])]
      exact Nat.zero_le _
    | kComplete m =>
      have hrest : ∀ m' rest', tryParseFrame rest ≠ (.kComplete m', rest') := by
        intro m' rest' heq
        simp only [heq] at hone
      have hreact := written_frameReaction (h := h) s m
      unfold frameLoop
      rw [drainAll_done parseFrame_stable (parseFrame_done.mpr hparse)]
      split
      · simp only [Drained.after, written_append]
        have hnil := written_frameLoop_nil (h := h)
          (s := (frameReaction h accepting s m).state) hrest
        unfold frameLoop at hnil
        rw [hnil, List.append_nil]
        exact hreact
      · exact hreact

theorem onReadable_queue (s : σ) : ∀ (reads : List ReadResult) (conn : Connection),
    (conn.onReadable h s reads).2.writeBuffer = conn.writeBuffer ∨
      (conn.onReadable h s reads).2.writeBuffer = conn.writeBuffer ++
        written (frameLoop h accepting s (conn.readBuffer ++ taken reads)).out := by
  intro reads
  induction reads with
  | nil =>
    intro conn
    right
    simp only [Connection.onReadable, Connection.processFrames, taken, List.append_nil]
  | cons r reads ih =>
    intro conn
    cases r with
    | data chunk =>
      have hnext := ih { conn with readBuffer := conn.readBuffer ++ chunk }
      rw [List.append_assoc] at hnext
      exact hnext
    | interrupted => exact ih conn
    | eof =>
      right
      simp only [Connection.onReadable, Connection.processFrames, Connection.markClosed, taken,
        List.append_nil]
    | failed => exact Or.inl rfl

/-- `OnWritable` only takes from the queue. -/
theorem onWritable_length : ∀ (writes : List WriteResult) (conn : Connection),
    (conn.onWritable writes).2.writeBuffer.length ≤ conn.writeBuffer.length := by
  intro writes
  induction writes with
  | nil =>
    intro conn
    exact Nat.le_refl _
  | cons w writes ih =>
    intro conn
    cases w with
    | accepted n =>
      simp only [Connection.onWritable]
      split
      · exact Nat.le_refl _
      · refine (ih _).trans ?_
        rw [List.length_drop]
        exact Nat.sub_le _ _
    | interrupted => exact ih conn
    | failed =>
      simp only [Connection.onWritable]
      split <;> exact Nat.le_refl _

/-- The queue of a connection that stays is no longer than it was while the event was handled. -/
theorem handleEvent_queue {ev : ReadyEvent} {world : σ} {conn c : Connection}
    (hc : (handleEvent h ev world conn).2.1 = some c) :
    c.writeBuffer.length ≤ conn.queueDuring h ev world := by
  unfold handleEvent at hc
  unfold Connection.queueDuring
  cases hhang : ev.hangup with
  | true =>
    rw [hhang, if_pos rfl] at hc
    cases hc
  | false =>
    rw [hhang, if_neg (by decide)] at hc
    simp only [Bool.not_false, Bool.true_and]
    generalize hr : (if ev.input = true then conn.onReadable h world ev.reads
      else (world, conn)) = r at hc
    have hlen : r.2.writeBuffer.length =
        if ev.input = true then (conn.onReadable h world ev.reads).2.writeBuffer.length
        else conn.writeBuffer.length := by
      rw [← hr]
      split <;> rfl
    rw [← hlen]
    simp only at hc
    split at hc
    · split at hc
      · cases hc
      · cases hc
        exact onWritable_length _ _
    · split at hc
      · cases hc
      · cases hc
        exact Nat.le_refl _

/-- **One event adds at most one response to a queue below the threshold.** -/
theorem queueDuring_le {ev : ReadyEvent} {world : σ} {conn : Connection} {peak : Nat}
    (hpeak : conn.writeBuffer.length ≤ peak) (hbound : peak ≤ maxQueued)
    (hwants : ev.input = true → conn.wantsInput = true)
    (hone : ev.input = true → atMostOneFrame (conn.readBuffer ++ taken ev.reads)) :
    conn.queueDuring h ev world ≤ maxQueued := by
  unfold Connection.queueDuring
  split
  · rename_i hread
    have hin : ev.input = true := (Bool.and_eq_true_iff.mp hread).2
    have hlt : conn.writeBuffer.length < kBackpressureThreshold := of_decide_eq_true (hwants hin)
    have hadd := written_frameLoop (h := h) (s := world) (hone hin)
    unfold maxQueued
    rcases onReadable_queue (h := h) world ev.reads conn with heq | heq
    · rw [heq]
      omega
    · rw [heq, List.length_append]
      omega
  · exact hpeak.trans hbound

end Event

/-! ## Runs -/

theorem Queueing.step_bounded {h : RequestHandler σ} {s s' : Queueing σ} {a : LoopAction σ}
    (hqueue : ∀ conn ∈ s.conn, conn.writeBuffer.length ≤ s.peak) (hpeak : s.peak ≤ maxQueued)
    (ha : oneFrameAtATime s a) (hs : s.step h a = some s') :
    (∀ conn ∈ s'.conn, conn.writeBuffer.length ≤ s'.peak) ∧ s'.peak ≤ maxQueued := by
  cases a with
  | elsewhere world =>
    cases hs
    exact ⟨hqueue, hpeak⟩
  | event ev =>
    unfold Queueing.step at hs
    cases hconn : s.conn with
    | none =>
      simp only [hconn] at hs
      cases hs
    | some conn =>
      simp only [hconn] at hs
      split at hs
      · rename_i hwants
        cases hs
        refine ⟨?_, Nat.max_le.mpr ⟨hpeak, ?_⟩⟩
        · intro c hc
          exact (handleEvent_queue hc).trans (Nat.le_max_right _ _)
        · exact queueDuring_le (hqueue conn hconn) hpeak hwants.1 (ha conn hconn)
      · cases hs

/-- **Backpressure bounds the queue** if no readable event finds more than one complete frame. -/
theorem queue_bounded {h : RequestHandler σ} {world : σ} {s : Queueing σ}
    (hr : Runs.Run (Queueing.step h) { world := world } oneFrameAtATime s) :
    s.peak ≤ maxQueued ∧ ∀ conn ∈ s.conn, conn.writeBuffer.length ≤ maxQueued := by
  suffices hall : (∀ conn ∈ s.conn, conn.writeBuffer.length ≤ s.peak) ∧ s.peak ≤ maxQueued from
    ⟨hall.2, fun conn hconn => (hall.1 conn hconn).trans hall.2⟩
  induction hr with
  | init =>
    refine ⟨?_, Nat.zero_le _⟩
    rintro conn ⟨⟩
    exact Nat.le_refl _
  | step _ ha hs ih => exact Queueing.step_bounded ih.1 ih.2 ha hs

/-- A request, and another one half of which comes with the first and half with the next event. -/
theorem queue_bounded_split :
    ∃ s : Queueing Nat,
      (s.peak ≤ maxQueued ∧ ∀ conn ∈ s.conn, conn.writeBuffer.length ≤ maxQueued) ∧
        decide (s.world = 2 ∧ s.peak = 52) = true := by
  obtain ⟨s, hr, hs⟩ : ∃ s : Queueing Nat,
      Runs.Run (Queueing.step countingHandler) { world := 0 } oneFrameAtATime s ∧
        decide (s.world = 2 ∧ s.peak = 52) = true :=
    exists_run [.event { input := true, reads := [.data getFrame, .data (getFrame.take 9)] },
      .event { input := true, reads := [.interrupted, .data (getFrame.drop 9)] }]
      (by decide +kernel)
  exact ⟨s, queue_bounded hr, hs⟩

/-! ## The server without a RaftNode -/

/-- `RequestHandler` with `raft_ == nullptr`, for requests that come one after another.  The call of
an idle store always returns (`DurableStorage.Idle.handle`). -/
def storageHandler : RequestHandler DurableStorage where
  handle s req :=
    match s.handle req with
    | some (resp, s') => (s', resp.toWire req.requestId)
    | none => (s, { requestId := req.requestId, status := .kInternalError })
  handleCluster s req := (s, (handleCluster none req).2)

/-- A call of an idle store is served. -/
theorem storageHandler_handle {s : DurableStorage} (hs : s.Idle) {req : Protocol.ClientRequest}
    (hreq : req.Valid) :
    ∃ s' : DurableStorage, storageHandler.handle s req =
        (s', ((serve .kNotFound s.kv.contents req).1).toWire req.requestId) ∧ s'.Idle ∧
      s'.kv.contents = (serve .kNotFound s.kv.contents req).2 := by
  obtain ⟨s', hhandle, hidle, hcontents⟩ := hs.handle hreq
  refine ⟨s', ?_, hidle, hcontents⟩
  simp only [storageHandler, hhandle]

theorem storageHandler_set {s : DurableStorage} (hs : s.Idle) {req : Protocol.ClientRequest}
    (hreq : req.Valid) (hop : req.opcode = .kSet) :
    ∃ s' : DurableStorage, storageHandler.handle s req =
        (s', ClientResponse.toWire req.requestId { status := .kOk }) ∧ s'.Idle ∧
      s'.kv.contents req.key = some req.value := by
  obtain ⟨s', hhandle, hidle, hcontents⟩ := storageHandler_handle hs hreq
  have hserve : serve .kNotFound s.kv.contents req =
      ({ status := .kOk }, Function.update s.kv.contents req.key (some req.value)) := by
    simp only [serve, hop]
  rw [hserve] at hhandle hcontents
  refine ⟨s', hhandle, hidle, ?_⟩
  rw [hcontents]
  exact Function.update_self _ _ _

theorem storageHandler_get {s : DurableStorage} (hs : s.Idle) {req : Protocol.ClientRequest}
    (hreq : req.Valid) (hop : req.opcode = .kGet) {value : Bytes}
    (hheld : s.kv.contents req.key = some value) :
    ∃ s' : DurableStorage, storageHandler.handle s req =
        (s', ClientResponse.toWire req.requestId { status := .kOk, value := value }) ∧ s'.Idle ∧
      s'.kv.contents req.key = some value := by
  obtain ⟨s', hhandle, hidle, hcontents⟩ := storageHandler_handle hs hreq
  have hserve : serve .kNotFound s.kv.contents req =
      ({ status := .kOk, value := value }, s.kv.contents) := by
    simp only [serve, hop, hheld]
  rw [hserve] at hhandle hcontents
  refine ⟨s', hhandle, hidle, ?_⟩
  rw [hcontents]
  exact hheld

/-! ## An overflow -/

/-- A frame at the front of the buffer. -/
theorem frameLoop_clientRequest {h : RequestHandler σ} {s s' : σ} {req : Protocol.ClientRequest}
    {resp : Protocol.ClientResponse} {encoded reply : Bytes}
    (hreq : encodeClientRequest req = .ok encoded) (hhandle : h.handle s req = (s', resp))
    (hreply : encodeClientResponse resp = .ok reply) (rest : Bytes) :
    frameLoop h accepting s (encoded ++ rest) =
      (frameLoop h accepting s' rest).after [.handled (.clientRequest req), .wrote reply] := by
  have hparse := Protocol.tryParseFrame_encode (m := .clientRequest req) hreq rest
  have hreact : frameReaction h accepting s (.clientRequest req) =
      ⟨s', [.handled (.clientRequest req), .wrote reply], true⟩ := by
    simp only [frameReaction, RequestHandler.answer, hhandle, hreply, accepting]
  unfold frameLoop
  rw [drainAll_done parseFrame_stable (parseFrame_done.mpr hparse), hreact]
  rfl

theorem frameLoop_lastRequest {h : RequestHandler σ} {s s' : σ} {req : Protocol.ClientRequest}
    {resp : Protocol.ClientResponse} {encoded reply : Bytes}
    (hreq : encodeClientRequest req = .ok encoded) (hhandle : h.handle s req = (s', resp))
    (hreply : encodeClientResponse resp = .ok reply) :
    frameLoop h accepting s encoded =
      ⟨s', [.handled (.clientRequest req), .wrote reply], some []⟩ := by
  have hloop := frameLoop_clientRequest hreq hhandle hreply []
  rw [List.append_nil] at hloop
  rw [hloop, frameLoop, drainAll_more rfl]
  rfl

/-- A readable event whose frames are all answered. -/
theorem Queueing.step_served {h : RequestHandler σ} {world world' : σ} {queued bytes : Bytes}
    {events : List SessionEvent} {peak : Nat} (hlt : queued.length < kBackpressureThreshold)
    (hloop : frameLoop h accepting world bytes = ⟨world', events, some []⟩) :
    Queueing.step h ⟨world, some ⟨[], queued, false⟩, peak⟩
        (.event { input := true, reads := [.data bytes] }) =
      some ⟨world', some ⟨[], queued ++ written events, false⟩,
        max peak (queued ++ written events).length⟩ := by
  have hread : Connection.onReadable h world [.data bytes] ⟨[], queued, false⟩ =
      (world', ⟨[], queued ++ written events, false⟩) := by
    simp only [Connection.onReadable, Connection.processFrames, List.nil_append, hloop]
    rfl
  have hwants : (⟨[], queued, false⟩ : Connection).wantsInput = true := decide_eq_true hlt
  simp only [Queueing.step, handleEvent, Connection.queueDuring, hread, hwants]
  rfl

theorem encodeClientResponse_length {resp : Protocol.ClientResponse} {encoded : Bytes}
    (h : encodeClientResponse resp = .ok encoded) : encoded.length = 26 + resp.value.length := by
  obtain ⟨_, rfl⟩ := Protocol.encodeFrame_ok.mp h
  rw [List.length_append, Protocol.header_length, Protocol.ClientResponse.payload_length]
  unfold kFrameHeaderSize
  omega

/-- One SET in a first event and two GETs for its value in a second: both answers are queued. -/
theorem set_get_get {s : DurableStorage} (hs : s.Idle) {set get : Protocol.ClientRequest}
    (hset : set.Valid) (hop : set.opcode = .kSet) (hget : get.Valid) (hop' : get.opcode = .kGet)
    (hkey : get.key = set.key) (hvalue : Sendable set.value) {setFrame getFrame : Bytes}
    (hsetFrame : encodeClientRequest set = .ok setFrame)
    (hgetFrame : encodeClientRequest get = .ok getFrame) :
    ∃ world queued peak,
      exec (Queueing.step storageHandler) anyStep { world := s }
        [.event { input := true, reads := [.data setFrame] },
          .event { input := true, reads := [.data (getFrame ++ getFrame)] }] =
        some ⟨world, some ⟨[], queued, false⟩, peak⟩ ∧
      queued.length = 78 + 2 * set.value.length ∧ queued.length ≤ peak := by
  obtain ⟨s₁, hhandle₁, hidle₁, hheld₁⟩ := storageHandler_set hs hset hop
  rw [← hkey] at hheld₁
  obtain ⟨s₂, hhandle₂, hidle₂, hheld₂⟩ := storageHandler_get hidle₁ hget hop' hheld₁
  obtain ⟨s₃, hhandle₃, _, _⟩ := storageHandler_get hidle₂ hget hop' hheld₂
  have hdone : ClientResponse.Encodes { status := .kOk } := encodeClientResponse_toWire sendable_nil
  have hfull : ClientResponse.Encodes { status := .kOk, value := set.value } :=
    encodeClientResponse_toWire hvalue
  obtain ⟨done, hdone⟩ := hdone set.requestId
  obtain ⟨found, hfound⟩ := hfull get.requestId
  have hdone_length : done.length = 26 := encodeClientResponse_length hdone
  have hfound_length : found.length = 26 + set.value.length := encodeClientResponse_length hfound
  have hloop₁ := frameLoop_lastRequest hsetFrame hhandle₁ hdone
  have hloop₂ := frameLoop_clientRequest hgetFrame hhandle₂ hfound getFrame
  rw [frameLoop_lastRequest hgetFrame hhandle₃ hfound] at hloop₂
  have hstep₁ : Queueing.step storageHandler { world := s }
      (.event { input := true, reads := [.data setFrame] }) =
        some ⟨s₁, some ⟨[], done, false⟩, max 0 done.length⟩ := by
    rw [Queueing.step_served (by decide) hloop₁]
    simp only [written, List.nil_append, List.append_nil]
  have hstep₂ : Queueing.step storageHandler ⟨s₁, some ⟨[], done, false⟩, max 0 done.length⟩
      (.event { input := true, reads := [.data (getFrame ++ getFrame)] }) =
        some ⟨s₃, some ⟨[], done ++ (found ++ found), false⟩,
          max (max 0 done.length) (done ++ (found ++ found)).length⟩ := by
    rw [Queueing.step_served (by rw [hdone_length]; decide) hloop₂]
    simp only [written, List.cons_append, List.nil_append, List.append_nil]
  refine ⟨s₃, done ++ (found ++ found), _, ?_, ?_, Nat.le_max_right (max 0 done.length) _⟩
  · simp only [exec, anyStep, if_true, hstep₁, hstep₂]
  · simp only [List.length_append, hdone_length, hfound_length]
    omega

/-- SET `a` to a value of the largest size that a request can carry. -/
def setLargest : Protocol.ClientRequest where
  opcode := .kSet
  key := [97]
  value := List.replicate (kMaxPayloadSize - 18) 0

def getLargest : Protocol.ClientRequest := { key := [97] }

theorem setLargest_length : setLargest.value.length = kMaxPayloadSize - 18 := List.length_replicate

theorem setLargest_valid : setLargest.Valid := by
  refine ⟨by decide, ?_⟩
  have hne : setLargest.value ≠ [] := by
    intro hnil
    have hlen := setLargest_length
    rw [hnil] at hlen
    exact absurd hlen (by decide)
  exact Fields.require_ok.mpr hne

/-- **Two requests for it in one read overflow the queue.** -/
theorem two_gets_overflow :
    ∃ setFrame getFrame s, encodeClientRequest setLargest = .ok setFrame ∧
      encodeClientRequest getLargest = .ok getFrame ∧
      exec (Queueing.step storageHandler) anyStep { world := startedStorage }
        [.event { input := true, reads := [.data setFrame] },
          .event { input := true, reads := [.data (getFrame ++ getFrame)] }] = some s ∧
      maxQueued < s.peak ∧ ∀ conn ∈ s.conn, maxQueued < conn.writeBuffer.length := by
  have hlen := setLargest_length
  have hget : getLargest.Valid := ⟨by decide, Fields.require_ok.mpr rfl⟩
  have hcap : 18 ≤ kMaxPayloadSize := by decide
  have hsetFrame : ∃ e, (Protocol.Message.clientRequest setLargest).encode = .ok e := by
    refine ⟨_, Protocol.Message.encode_iff.mpr ⟨setLargest_valid, ?_, rfl⟩⟩
    show setLargest.payload.length ≤ _
    rw [Protocol.ClientRequest.payload_length, hlen]
    show 8 + 1 + 4 + 1 + 4 + (kMaxPayloadSize - 18) ≤ kMaxPayloadSize
    omega
  have hgetFrame : ∃ e, (Protocol.Message.clientRequest getLargest).encode = .ok e :=
    ⟨_, Protocol.Message.encode_iff.mpr ⟨hget, by decide, rfl⟩⟩
  obtain ⟨setFrame, hsetFrame⟩ := hsetFrame
  obtain ⟨getFrame, hgetFrame⟩ := hgetFrame
  have hvalue : Sendable setLargest.value := by
    unfold Sendable
    omega
  obtain ⟨world, queued, peak, hexec, hqueued, hpeak⟩ :=
    set_get_get startedStorage_idle setLargest_valid rfl hget rfl rfl hvalue hsetFrame hgetFrame
  have hover : maxQueued < queued.length := by
    rw [hqueued, hlen]
    decide
  refine ⟨setFrame, getFrame, _, hsetFrame, hgetFrame, hexec, Nat.lt_of_lt_of_le hover hpeak, ?_⟩
  rintro conn ⟨⟩
  exact hover

end NeuralKV
