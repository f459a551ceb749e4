import NeuralKV.Lib.Runs
import NeuralKV.Server.Session

/-!
# Connections of the epoll server

Model of `src/net/connection.cpp` and of `WantedEvents`, `HandleEvent` and `RemoveConnection` of
`src/net/epoll_server.cpp` for one connection, next to the sessions of `ServeClientSession`.  The
documentation promises that swapping I/O models never changes behavior.

* `Connection`, `handleEvent` — the two buffers and what one readiness event does with them.
* `EpollClient.step` — one event on a connection whose client sends a stream and closes its
  sending side: what has been read is a beginning of the stream, and the end of file comes last.
* `epoll_delivers_iff` — **the connection delivers what a session would have written exactly if
  nothing is queued or answered in the event that closes it.**
* `epoll_loses_response` — a request and the end of file in one event: nothing is delivered.
-/

set_option autoImplicit false

namespace NeuralKV

open Protocol (Message tryParseFrame)
open Incremental
open Runs (anyStep exists_run)

variable {σ : Type}

/-- The responses among the events, as bytes. -/
def written : List SessionEvent → Bytes
  | [] => []
  | .handled _ :: events => written events
  | .wrote encoded :: events => encoded ++ written events

/-- A queue, or a socket that accepts all that is written to it. -/
def accepting (s : σ) (_ : Bytes) : σ × Bool := (s, true)

/-! ## Connections -/

structure Connection where
  readBuffer : Bytes := []
  writeBuffer : Bytes := []
  closed : Bool := false
  deriving DecidableEq, Repr

/-- What a call of `write` returns. -/
inductive WriteResult where
  | accepted (n : Nat)
  | interrupted
  | failed
  deriving DecidableEq, Repr

namespace Connection

/-- `Connection::MarkClosed`. -/
def markClosed (conn : Connection) : Connection := { conn with closed := true }

/-- `Connection::ProcessFrames`.  The buffer of a connection that is closed here is not read
again. -/
def processFrames (h : RequestHandler σ) (s : σ) (conn : Connection) : σ × Connection :=
  let d := frameLoop h accepting s conn.readBuffer
  (d.state,
    { readBuffer := d.buffer.getD []
      writeBuffer := conn.writeBuffer ++ written d.out
      closed := conn.closed || d.buffer.isNone })

/-- `Connection::OnReadable`; the list ends where `read` returns `EAGAIN`.  Its status is not looked
at by the caller. -/
def onReadable (h : RequestHandler σ) (s : σ) : List ReadResult → Connection → σ × Connection
  | [], conn => conn.processFrames h s
  | .data chunk :: reads, conn =>
    onReadable h s reads { conn with readBuffer := conn.readBuffer ++ chunk }
  | .interrupted :: reads, conn => onReadable h s reads conn
  | .eof :: _, conn => conn.markClosed.processFrames h s
  | .failed :: _, conn => (s, conn.markClosed)

/-- `Connection::OnWritable`: the bytes the socket has taken and the connection afterwards. -/
def onWritable : List WriteResult → Connection → Bytes × Connection
  | [], conn => ([], conn)
  | .accepted n :: writes, conn =>
    if conn.writeBuffer = [] then ([], conn)
    else
      let r := onWritable writes { conn with writeBuffer := conn.writeBuffer.drop n }
      (conn.writeBuffer.take n ++ r.1, r.2)
  | .interrupted :: writes, conn => onWritable writes conn
  | .failed :: _, conn => if conn.writeBuffer = [] then ([], conn) else ([], conn.markClosed)

end Connection

/-! ## Events -/

/-- `kBackpressureThreshold`. -/
def kBackpressureThreshold : Nat := 1024 * 1024

/-- `EPOLLIN` in `WantedEvents`. -/
def Connection.wantsInput (conn : Connection) : Bool :=
  decide (conn.writeBuffer.length < kBackpressureThreshold)

/-- `EPOLLOUT` in `WantedEvents`. -/
def Connection.wantsOutput (conn : Connection) : Bool := decide (conn.writeBuffer ≠ [])

/-- An `epoll_event` for the connection, with what the system calls made in handling it return. -/
structure ReadyEvent where
  hangup : Bool := false
  input : Bool := false
  output : Bool := false
  reads : List ReadResult := []
  writes : List WriteResult := []
  deriving DecidableEq, Repr

/-- `EpollServer::HandleEvent`: the connection is `none` once it has been removed; the bytes are
those the socket has taken. -/
def handleEvent (h : RequestHandler σ) (ev : ReadyEvent) (s : σ) (conn : Connection) :
    σ × Option Connection × Bytes :=
  if ev.hangup then (s, none, [])
  else
    let r := if ev.input then conn.onReadable h s ev.reads else (s, conn)
    let w := if !r.2.closed && ev.output then r.2.onWritable ev.writes else ([], r.2)
    (r.1, if w.2.closed then none else some w.2, w.1)

/-! ## A client that sends a stream and closes its sending side -/

structure EpollClient (σ : Type) where
  world : σ
  conn : Option Connection := some {}
  /-- What the client has sent and the server has not read. -/
  incoming : Bytes
  /-- What the client has been sent. -/
  delivered : Bytes := []

/-- A readiness event of such a client: the reads up to `EAGAIN` or the end of file. -/
structure Arrival where
  input : Bool := false
  reads : List ReadResult := []
  eof : Bool := false
  output : Bool := false
  writes : List WriteResult := []
  deriving DecidableEq, Repr

def Arrival.event (a : Arrival) : ReadyEvent where
  input := a.input
  output := a.output
  reads := a.reads ++ if a.eof then [.eof] else []
  writes := a.writes

namespace EpollClient

/-- The connection right after `accept`. -/
def start (s : σ) (stream : Bytes) : EpollClient σ := { world := s, incoming := stream }

/-- What can be reported: flags that `WantedEvents` has asked for, bytes of the stream in their
order, and its end after the last of them. -/
def Possible (st : EpollClient σ) (conn : Connection) (a : Arrival) : Prop :=
  (a.input = true → conn.wantsInput = true) ∧ (a.output = true → conn.wantsOutput = true) ∧
    (a.input = false → a.reads = [] ∧ a.eof = false) ∧ (∀ r ∈ a.reads, r.Continues) ∧
    received a.reads <+: st.incoming ∧ (a.eof = true → received a.reads = st.incoming)

instance (st : EpollClient σ) (conn : Connection) (a : Arrival) :
    Decidable (st.Possible conn a) := by
  unfold Possible
  infer_instance

/-- The socket takes all that is written to it. -/
def Accepted (conn : Option Connection) (a : Arrival) : Prop :=
  a.output = true → WriteResult.failed ∉ a.writes ∧ ∀ c ∈ conn, c.writeBuffer = []

instance (conn : Option Connection) (a : Arrival) : Decidable (Accepted conn a) := by
  unfold Accepted
  infer_instance

/-- One event. -/
def step (h : RequestHandler σ) (st : EpollClient σ) (a : Arrival) : Option (EpollClient σ) :=
  match st.conn with
  | none => none
  | some conn =>
    let r := handleEvent h a.event st.world conn
    if st.Possible conn a ∧ Accepted r.2.1 a then
      some
        { world := r.1
          conn := r.2.1
          incoming := st.incoming.drop (received a.reads).length
          delivered := st.delivered ++ r.2.2 }
    else none

end EpollClient

/-! ## What one event does -/

theorem written_append (e₁ e₂ : List SessionEvent) :
    written (e₁ ++ e₂) = written e₁ ++ written e₂ := by
  induction e₁ with
  | nil => rfl
  | cons e e₁ ih =>
    cases e with
    | handled m => exact ih
    | wrote encoded => simp only [List.cons_append, written, ih, List.append_assoc]

theorem onReadable_arrival (h : RequestHandler σ) (s : σ) (eof : Bool) :
    ∀ (reads : List ReadResult), (∀ r ∈ reads, r.Continues) → ∀ (conn : Connection),
      conn.onReadable h s (reads ++ if eof then [.eof] else []) =
        Connection.processFrames h s
          { conn with
            readBuffer := conn.readBuffer ++ received reads
            closed := conn.closed || eof } := by
  intro reads
  induction reads with
  | nil =>
    intro _ conn
    cases eof with
    | false => simp [Connection.onReadable, received]
    | true => simp [Connection.onReadable, received, Connection.markClosed]
  | cons r reads ih =>
    intro hgo conn
    have hreads := ih fun q hq => hgo q (List.mem_cons_of_mem _ hq)
    cases r with
    | data chunk =>
      rw [List.cons_append, Connection.onReadable, hreads]
      simp only [received, List.append_assoc]
    | interrupted => exact hreads conn
    | eof => cases hgo _ List.mem_cons_self
    | failed => cases hgo _ List.mem_cons_self

/-- `OnWritable` moves bytes from the queue to the client and touches nothing else. -/
theorem onWritable_spec :
    ∀ (writes : List WriteResult), WriteResult.failed ∉ writes → ∀ (conn : Connection),
      (conn.onWritable writes).1 ++ (conn.onWritable writes).2.writeBuffer = conn.writeBuffer ∧
        (conn.onWritable writes).2.readBuffer = conn.readBuffer ∧
        (conn.onWritable writes).2.closed = conn.closed := by
  intro writes
  induction writes with
  | nil =>
    intro _ conn
    exact ⟨rfl, rfl, rfl⟩
  | cons w writes ih =>
    intro hfail conn
    have hwrites := ih fun hmem => hfail (List.mem_cons_of_mem _ hmem)
    cases w with
    | accepted n =>
      simp only [Connection.onWritable]
      split
      · exact ⟨rfl, rfl, rfl⟩
      · obtain ⟨hbytes, hread, hclosed⟩ :=
          hwrites { conn with writeBuffer := conn.writeBuffer.drop n }
        refine ⟨?_, hread, hclosed⟩
        rw [List.append_assoc, hbytes, List.take_append_drop]
    | interrupted => exact hwrites conn
    | failed => exact absurd List.mem_cons_self hfail

section Moves

variable {h : RequestHandler σ} {st st' : EpollClient σ} {a : Arrival} {conn : Connection}

/-- **What an event can do**: nothing is read; frames are answered and the connection stays; or the
connection is closed, and what is queued then is lost. -/
inductive EventMove (h : RequestHandler σ) (st : EpollClient σ) (conn : Connection) (a : Arrival) :
    EpollClient σ → Prop where
  | quiet {c : Connection} {out : Bytes} (hread : c.readBuffer = conn.readBuffer)
      (hclosed : c.closed = false) (hqueue : out ++ c.writeBuffer = conn.writeBuffer)
      (hnone : received a.reads = []) :
    EventMove h st conn a
      { st with conn := some c, delivered := st.delivered ++ out }
  | served {c : Connection} {out : Bytes}
      (hloop : (frameLoop h accepting st.world (conn.readBuffer ++ received a.reads)).buffer =
        some c.readBuffer)
      (hclosed : c.closed = false)
      (hqueue : out ++ c.writeBuffer = conn.writeBuffer ++
        written (frameLoop h accepting st.world (conn.readBuffer ++ received a.reads)).out) :
    EventMove h st conn a
      { world := (frameLoop h accepting st.world (conn.readBuffer ++ received a.reads)).state
        conn := some c
        incoming := st.incoming.drop (received a.reads).length
        delivered := st.delivered ++ out }
  | dropped
      (hend : a.eof = true ∨
        (frameLoop h accepting st.world (conn.readBuffer ++ received a.reads)).buffer = none) :
    EventMove h st conn a
      { world := (frameLoop h accepting st.world (conn.readBuffer ++ received a.reads)).state
        conn := none
        incoming := st.incoming.drop (received a.reads).length
        delivered := st.delivered }

/-- The second half of `HandleEvent` on a connection that is still open. -/
def flush (a : Arrival) (c : Connection) : Bytes × Connection :=
  if !c.closed && a.output then c.onWritable a.writes else ([], c)

theorem flush_closed {c : Connection} (h : c.closed = true) : flush a c = ([], c) := by
  simp [flush, h]

theorem flush_spec {c : Connection} (hfail : a.output = true → WriteResult.failed ∉ a.writes) :
    (flush a c).1 ++ (flush a c).2.writeBuffer = c.writeBuffer ∧
      (flush a c).2.readBuffer = c.readBuffer ∧ (flush a c).2.closed = c.closed := by
  unfold flush
  split
  · rename_i hout
    exact onWritable_spec a.writes (hfail (Bool.and_eq_true_iff.mp hout).2) c
  · exact ⟨rfl, rfl, rfl⟩

/-- `ProcessFrames` on a connection that is closed before or by it. -/
theorem processFrames_closed {c : Connection} {s : σ}
    (hend : c.closed = true ∨ (frameLoop h accepting s c.readBuffer).buffer = none) :
    ∃ c', c.processFrames h s = ((frameLoop h accepting s c.readBuffer).state, c') ∧
      c'.closed = true := by
  refine ⟨_, rfl, ?_⟩
  rcases hend with hclosed | hstop
  · simp [hclosed]
  · simp [hstop]

/-- `ProcessFrames` on a connection that stays open. -/
theorem processFrames_open {c : Connection} {s : σ} {rest : Bytes} (hopen : c.closed = false)
    (hrest : (frameLoop h accepting s c.readBuffer).buffer = some rest) :
    c.processFrames h s =
      ((frameLoop h accepting s c.readBuffer).state,
        { readBuffer := rest
          writeBuffer := c.writeBuffer ++ written (frameLoop h accepting s c.readBuffer).out
          closed := false }) := by
  simp [Connection.processFrames, hopen, hrest]

theorem handleEvent_silent (hin : a.input = false) (s : σ) :
    handleEvent h a.event s conn =
      (s, if (flush a conn).2.closed then none else some (flush a conn).2, (flush a conn).1) := by
  simp only [handleEvent, Arrival.event, hin]
  rfl

theorem handleEvent_input (hin : a.input = true) (hgo : ∀ r ∈ a.reads, r.Continues) (s : σ) :
    handleEvent h a.event s conn =
      let r := Connection.processFrames h s
        { conn with
          readBuffer := conn.readBuffer ++ received a.reads
          closed := conn.closed || a.eof }
      (r.1, if (flush a r.2).2.closed then none else some (flush a r.2).2, (flush a r.2).1) := by
  simp only [handleEvent, Arrival.event, hin, if_true, onReadable_arrival h s a.eof a.reads hgo]
  rfl

theorem step_eventMove (hconn : st.conn = some conn) (hopen : conn.closed = false)
    (hs : st.step h a = some st') : st.Possible conn a ∧ EventMove h st conn a st' := by
  unfold EpollClient.step at hs
  simp only [hconn] at hs
  split at hs
  · rename_i hguard
    obtain ⟨hposs, hacc⟩ := hguard
    refine ⟨hposs, ?_⟩
    obtain ⟨_, _, hnone, hgo, _, _⟩ := hposs
    have hfail : a.output = true → WriteResult.failed ∉ a.writes := fun hout => (hacc hout).1
    cases hin : a.input with
    | false =>
      have hbytes : received a.reads = [] := by
        rw [(hnone hin).1]
        rfl
      obtain ⟨hqueue, hread, hclosed⟩ := flush_spec (c := conn) hfail
      rw [handleEvent_silent hin, hclosed, hopen] at hs
      rw [hbytes] at hs
      cases hs
      exact .quiet hread (hclosed.trans hopen) hqueue hbytes
    | true =>
      rw [handleEvent_input hin hgo, hopen, Bool.false_or] at hs
      by_cases hend : a.eof = true ∨
          (frameLoop h accepting st.world (conn.readBuffer ++ received a.reads)).buffer = none
      · -- closed while reading: nothing is flushed
        obtain ⟨c, hc, hclosed⟩ := processFrames_closed
          (c := { conn with readBuffer := conn.readBuffer ++ received a.reads, closed := a.eof })
          hend
        simp only [hc, flush_closed hclosed, hclosed, if_true, List.append_nil] at hs
        cases hs
        exact .dropped hend
      · obtain ⟨heof, hgoes⟩ := not_or.mp hend
        obtain ⟨rest, hrest⟩ := Option.ne_none_iff_exists'.mp hgoes
        have hp := processFrames_open
          (c := { conn with readBuffer := conn.readBuffer ++ received a.reads, closed := a.eof })
          (Bool.eq_false_iff.mpr heof) hrest
        rw [hp] at hs
        obtain ⟨hqueue, hread, hclosed⟩ := flush_spec
          (c := { readBuffer := rest
                  writeBuffer := conn.writeBuffer ++ written (frameLoop h accepting st.world
                    (conn.readBuffer ++ received a.reads)).out
                  closed := false }) hfail
        simp only [hclosed] at hs
        cases hs
        exact .served (hrest.trans (congrArg some hread.symm)) hclosed hqueue
  · cases hs

end Moves

/-! ## The connection follows the session -/

/-- An open connection has done what a session does with the bytes read so far, except that the
last of the responses may still be queued. -/
def Following (h : RequestHandler σ) (s : σ) (stream : Bytes) (st : EpollClient σ)
    (conn : Connection) : Prop :=
  conn.closed = false ∧ ∃ consumed events, consumed ++ st.incoming = stream ∧
    frameLoop h accepting s consumed = ⟨st.world, events, some conn.readBuffer⟩ ∧
    written events = st.delivered ++ conn.writeBuffer

section Following

variable {h : RequestHandler σ} {s : σ} {stream : Bytes} {st st' : EpollClient σ}
  {conn conn' : Connection} {a : Arrival}

/-- The loop over what was read before and what is read now. -/
theorem frameLoop_more {write : σ → Bytes → σ × Bool} {consumed rest : Bytes} {world : σ}
    {events : List SessionEvent} (hloop : frameLoop h write s consumed = ⟨world, events, some rest⟩)
    (x : Bytes) :
    frameLoop h write s (consumed ++ x) = (frameLoop h write world (rest ++ x)).after events := by
  unfold frameLoop at hloop ⊢
  rw [drainAll_append parseFrame_stable, hloop]
  rfl

/-- Once the session has ended nothing more is read. -/
theorem frameLoop_ended {write : σ → Bytes → σ × Bool} {consumed : Bytes}
    (hend : (frameLoop h write s consumed).buffer = none) (x : Bytes) :
    frameLoop h write s (consumed ++ x) = frameLoop h write s consumed := by
  unfold frameLoop at hend ⊢
  rw [drainAll_append parseFrame_stable, Drained.more, hend]

theorem Following.init : Following h s stream (.start s stream) {} := by
  refine ⟨rfl, [], [], rfl, ?_, rfl⟩
  exact drainAll_more rfl

theorem Following.step (F : Following h s stream st conn) (hconn : st.conn = some conn)
    (hs : st.step h a = some st') (hconn' : st'.conn = some conn') :
    Following h s stream st' conn' := by
  obtain ⟨hopen, consumed, events, hstream, hloop, hbytes⟩ := F
  obtain ⟨⟨_, _, _, _, hpre, _⟩, mv⟩ := step_eventMove hconn hopen hs
  cases mv with
  | quiet hread hclosed hqueue _ =>
    cases hconn'
    refine ⟨hclosed, consumed, events, hstream, ?_, ?_⟩
    · rw [hread]
      exact hloop
    · rw [List.append_assoc, hqueue]
      exact hbytes
  | served hrest hclosed hqueue =>
    cases hconn'
    obtain ⟨rest, hrest'⟩ := hpre
    refine ⟨hclosed, consumed ++ received a.reads,
      events ++ (frameLoop h accepting st.world (conn.readBuffer ++ received a.reads)).out, ?_, ?_,
      ?_⟩
    · rw [← hrest', List.drop_left, List.append_assoc, hrest', hstream]
    · rw [frameLoop_more hloop, Drained.after, hrest]
    · rw [written_append, hbytes, List.append_assoc, List.append_assoc, hqueue]
  | dropped _ => cases hconn'

theorem run_following (hr : Runs.Run (EpollClient.step h) (.start s stream) anyStep st)
    (hconn : st.conn = some conn) : Following h s stream st conn := by
  induction hr generalizing conn with
  | init =>
    cases hconn
    exact Following.init
  | @step st st' a _ _ hs ih =>
    cases hprev : st.conn with
    | none =>
      unfold EpollClient.step at hs
      rw [hprev] at hs
      cases hs
    | some c => exact (ih hprev).step hprev hs hconn

/-- **What is lost when the connection is closed**: the queue, and the answers of the event. -/
theorem Following.closes (F : Following h s stream st conn) (hconn : st.conn = some conn)
    (hs : st.step h a = some st') (hnone : st'.conn = none) :
    written (frameLoop h accepting s stream).out = st'.delivered ++ conn.writeBuffer ++
      written (frameLoop h accepting st.world (conn.readBuffer ++ received a.reads)).out := by
  obtain ⟨hopen, consumed, events, hstream, hloop, hbytes⟩ := F
  obtain ⟨⟨_, _, _, _, hpre, heof⟩, mv⟩ := step_eventMove hconn hopen hs
  cases mv with
  | quiet _ _ _ _ => cases hnone
  | served _ _ _ => cases hnone
  | dropped hend =>
    have hread := frameLoop_more hloop (received a.reads)
    have hall : frameLoop h accepting s stream =
        frameLoop h accepting s (consumed ++ received a.reads) := by
      rcases hend with hend | hend
      · rw [heof hend, hstream]
      · obtain ⟨rest, hrest⟩ := hpre
        rw [← hstream, ← hrest, ← List.append_assoc]
        refine frameLoop_ended ?_ rest
        rw [hread]
        exact hend
    rw [hall, hread, Drained.after, written_append, hbytes]

end Following

/-! ## When nothing is lost -/

/-- The buffer starts with a request that gets a response. -/
def RequestHandler.answersFirst (h : RequestHandler σ) (s : σ) (buffer : Bytes) : Bool :=
  match tryParseFrame buffer with
  | (.kComplete m, _) =>
    match h.answer s m with
    | some (_, .ok _) => true
    | _ => false
  | _ => false

/-- A response is not empty. -/
theorem answer_ne_nil {h : RequestHandler σ} {s s' : σ} {m : Message} {encoded : Bytes}
    (ha : h.answer s m = some (s', .ok encoded)) : encoded ≠ [] := by
  have hframe : ∀ {m' : Message}, m'.encode = .ok encoded → encoded ≠ [] := by
    rintro m' hm rfl
    obtain ⟨_, _, hnil⟩ := Protocol.Message.encode_iff.mp hm
    cases hnil
  cases m with
  | clientRequest req =>
    exact @hframe (.clientResponse (h.handle s req).2) (Prod.mk.inj (Option.some.inj ha)).2
  | clusterRequest req =>
    exact @hframe (.clusterResponse (h.handleCluster s req).2) (Prod.mk.inj (Option.some.inj ha)).2
  | clientResponse resp => cases ha
  | clusterResponse resp => cases ha

/-- Nothing is written exactly if the first frame is not answered: the loop goes on only after an
answer. -/
theorem written_frameLoop_eq_nil (h : RequestHandler σ) (s : σ) (buffer : Bytes) :
    written (frameLoop h accepting s buffer).out = [] ↔ h.answersFirst s buffer = false := by
  unfold frameLoop RequestHandler.answersFirst
  rcases htry : tryParseFrame buffer with ⟨result, rest⟩
  cases result with
  | kNeedMore =>
    have hparse : parseFrame buffer = .more := by simp only [parseFrame, htry]
    rw [drainAll_more hparse]
    simp [written]
  | kError =>
    have hparse : parseFrame buffer = .bad := by simp only [parseFrame, htry]
    rw [drainAll_bad hparse]
    simp [written]
  | kComplete m =>
    rw [drainAll_done parseFrame_stable (parseFrame_done.mpr htry)]
    rcases hans : h.answer s m with _ | ⟨s', e | encoded⟩
    · have hreact : frameReaction h accepting s m = ⟨s, [], false⟩ := by
        simp only [frameReaction, hans]
      simp [hreact, hans, written]
    · have hreact : frameReaction h accepting s m = ⟨s', [.handled m], false⟩ := by
        simp only [frameReaction, hans]
      simp [hreact, hans, written]
    · have hreact : frameReaction h accepting s m =
          ⟨s', [.handled m, .wrote encoded], true⟩ := by
        simp only [frameReaction, hans, accepting]
      simp [hreact, hans, Drained.after, written, answer_ne_nil hans]

/-- **The epoll server delivers what a session writes exactly if the event that closes the
connection finds nothing queued and does not itself answer a request.** -/
theorem epoll_delivers_iff {h : RequestHandler σ} {s : σ} {stream : Bytes} {st st' : EpollClient σ}
    {a : Arrival} {reads : List ReadResult}
    (hr : Runs.Run (EpollClient.step h) (.start s stream) anyStep st)
    (hs : st.step h a = some st') (hclosed : st'.conn = none) (hgo : ∀ r ∈ reads, r.Continues)
    (hstream : received reads = stream) :
    st'.delivered = written (serveClientSession h accepting (reads ++ [.eof]) s []).2 ↔
      ∀ conn ∈ st.conn, conn.writeBuffer = [] ∧
        h.answersFirst st.world (conn.readBuffer ++ received a.reads) = false := by
  cases hconn : st.conn with
  | none =>
    unfold EpollClient.step at hs
    rw [hconn] at hs
    cases hs
  | some conn =>
    have hlost := (run_following hr hconn).closes hconn hs hclosed
    have hquiet := written_frameLoop_eq_nil h st.world (conn.readBuffer ++ received a.reads)
    rw [serveClientSession_stream h accepting reads hgo, List.nil_append, hstream, hlost,
      List.append_assoc, List.self_eq_append_right, List.append_eq_nil_iff, hquiet]
    constructor
    · rintro hnothing c hc
      cases hc
      exact hnothing
    · intro hall
      exact hall conn rfl

/-- A request, its response flushed by the next event, and the end of file by itself. -/
theorem epoll_delivers_flushed :
    ∃ st : EpollClient Nat,
      Runs.Run (EpollClient.step countingHandler) (.start 0 getFrame) anyStep st ∧
      st.conn = none ∧ st.delivered ≠ [] ∧
      st.delivered =
        written (serveClientSession countingHandler accepting [.data getFrame, .eof] 0 []).2 := by
  obtain ⟨st, hr, hst⟩ : ∃ st : EpollClient Nat,
      Runs.Run (EpollClient.step countingHandler) (.start 0 getFrame) anyStep st ∧
      decide (st.conn = some {} ∧ ((st.step countingHandler { input := true, eof := true }).any
        fun st' => decide (st'.conn = none ∧ st'.delivered ≠ [])) = true) = true :=
    exists_run
      [{ input := true, reads := [.data (getFrame.take 9), .data (getFrame.drop 9)] },
        { output := true, writes := [.accepted 10, .accepted 16] }] (by decide +kernel)
  obtain ⟨hconn, hnext⟩ := of_decide_eq_true hst
  cases hs : st.step countingHandler { input := true, eof := true } with
  | none =>
    rw [hs] at hnext
    cases hnext
  | some st' =>
    rw [hs] at hnext
    obtain ⟨hclosed, hsome⟩ := of_decide_eq_true hnext
    refine ⟨st', hr.step trivial hs, hclosed, hsome, ?_⟩
    have hstream : received [.data getFrame] = getFrame := rfl
    refine (epoll_delivers_iff hr hs hclosed (by decide) hstream).mpr ?_
    intro conn hc
    rw [hconn] at hc
    cases hc
    exact ⟨rfl, rfl⟩

/-- **In general responses are lost**: a request and the end of file arrive together, and the
connection is removed with the response still queued. -/
theorem epoll_loses_response :
    ¬ ∀ (h : RequestHandler Nat) (s : Nat) (stream : Bytes) (st : EpollClient Nat)
      (reads : List ReadResult),
      Runs.Run (EpollClient.step h) (.start s stream) anyStep st → st.conn = none →
      (∀ r ∈ reads, r.Continues) → received reads = stream →
      st.delivered = written (serveClientSession h accepting (reads ++ [.eof]) s []).2 := by
  intro hall
  obtain ⟨st, hr, hst⟩ : ∃ st : EpollClient Nat,
      Runs.Run (EpollClient.step countingHandler) (.start 0 getFrame) anyStep st ∧
      decide (st.conn = none ∧ st.delivered = []) = true :=
    exists_run [{ input := true, reads := [.data getFrame], eof := true }] (by decide +kernel)
  obtain ⟨hconn, hlost⟩ := of_decide_eq_true hst
  have heq := hall countingHandler 0 getFrame st [.data getFrame] hr hconn (by decide) rfl
  rw [hlost] at heq
  exact absurd heq (by decide +kernel)

end NeuralKV
