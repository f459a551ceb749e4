import NeuralKV.Net.Connection

/-!
# The event loop of the epoll server

Model of `src/net/epoll_server.cpp` with all its connections, on top of the contract of `epoll(7)`:
a registered descriptor is put on the ready list when something happens that it is registered for,
and when it is registered (again) while something is there; `epoll_wait` takes descriptors off the
list and reports what holds of them at that moment.  Descriptor numbers are used again after they
have been closed.

* `EpollServer.step` — the loop of `Run`, `AcceptNewConnections`, `HandleEvent`, `RemoveConnection`
  and `Stop`, the kernel's sockets and registrations, and the clients.
* `EpollMove`, `epoll_move` — what a step can do.
* `epoll_tables_agree` — **the connection table, the open sockets and the registrations have the same
  descriptors**, every connection is registered for what `WantedEvents` says, and no event reaches
  another connection than the one it was reported for.
* `epoll_answers_everything` — **no edge is lost**: when `epoll_wait` would block, every connection
  whose client takes its responses has answered every request it was sent, in order.
* `paused_half_close_spins` — a client that closes its sending side while its reads are paused keeps
  the loop from ever blocking.
-/

set_option autoImplicit false

namespace NeuralKV

open Protocol (Message tryParseFrame)
open Incremental
open Runs (Run anyStep exists_run)

variable {σ : Type}

/-! ## The kernel's side -/

/-- The kernel's end of an accepted connection. -/
structure Socket where
  /-- History: which client is at the other end. -/
  client : Nat
  /-- Received and not yet read. -/
  incoming : Bytes := []
  /-- The client has closed its sending side. -/
  fin : Bool := false
  /-- `EPOLLHUP` or `EPOLLERR` holds. -/
  hup : Bool := false
  /-- How much `write` accepts before it returns `EAGAIN`. -/
  room : Nat := 0
  /-- History: what the client has sent, and what the socket has taken for it. -/
  arrived : Bytes := []
  sent : Bytes := []
  deriving DecidableEq, Repr

/-- What `HandleEvent` leaves of it: all is read if the event said so, and `out` is taken. -/
def Socket.handled (k : Socket) (input : Bool) (out : Bytes) : Socket :=
  { k with
    incoming := if input then [] else k.incoming
    room := k.room - out.length
    sent := k.sent ++ out }

section Handled

variable (k : Socket) (input : Bool) (out : Bytes)

@[simp] theorem Socket.handled_arrived : (k.handled input out).arrived = k.arrived := rfl

@[simp] theorem Socket.handled_sent : (k.handled input out).sent = k.sent ++ out := rfl

@[simp] theorem Socket.handled_incoming :
    (k.handled input out).incoming = if input then [] else k.incoming := rfl

end Handled

/-- A registration for `EPOLLET | EPOLLRDHUP` and, if set, `EPOLLIN` and `EPOLLOUT`. -/
structure Registration where
  input : Bool
  output : Bool
  /-- On the ready list. -/
  ready : Bool
  deriving DecidableEq, Repr

/-- Something holds of the socket that is reported for this registration. -/
def Registration.reports (r : Registration) (k : Socket) : Bool :=
  k.hup || k.fin || (r.input && decide (k.incoming ≠ [])) || (r.output && decide (0 < k.room))

/-- `EPOLL_CTL_ADD` and `EPOLL_CTL_MOD` with `WantedEvents(conn)`: the descriptor is ready if there
is something to report. -/
def registerFor (conn : Connection) (ready : Bool) (k : Socket) : Registration :=
  let r : Registration := { input := conn.wantsInput, output := conn.wantsOutput, ready := ready }
  { r with ready := ready || r.reports k }

/-- An entry of `events` as `epoll_wait` has filled it in. -/
structure Report where
  fd : Nat
  hangup : Bool := false
  input : Bool := false
  output : Bool := false
  /-- History: the client it is about; `none` for the two descriptors of the server. -/
  client : Option Nat := none
  deriving DecidableEq, Repr

/-! ## The server -/

/-- An entry of `connections_`. -/
structure Entry where
  /-- History: the client it was accepted for. -/
  client : Nat
  conn : Connection
  deriving DecidableEq, Repr

/-- Where `Run` is. -/
inductive EpollPoint where
  | top
  /-- In `epoll_wait`. -/
  | waiting
  /-- The events that are still to be handled. -/
  | handling (batch : List Report)
  | returned (status : Status)
  deriving DecidableEq, Repr

structure EpollServer (σ : Type) where
  world : σ
  point : EpollPoint := .top
  listenFd : Nat := 3
  epollFd : Nat := 4
  wakeFd : Nat := 5
  connections : Nat → Option Entry := fun _ => none
  stop : Bool := false
  /-- The kernel: open sockets and registrations by descriptor, clients that wait to be accepted,
  and whether the counter of `wake_fd_` is positive. -/
  sockets : Nat → Option Socket := fun _ => none
  registrations : Nat → Option Registration := fun _ => none
  backlog : List Nat := []
  wake : Bool := false
  /-- History: how many clients have connected, and whether `Stop` has written to `wake_fd_`. -/
  clients : Nat := 0
  woken : Bool := false

inductive EpollAction (σ : Type) where
  /-- `while (!stop_.load())`. -/
  | check
  | wait (fds : List Nat)
  | waitInterrupted
  | waitFails (reason : String)
  /-- The `for` loop over the events has ended. -/
  | turn
  | drainWake
  /-- `accept` returns `fd` for a socket; `added` says whether `EPOLL_CTL_ADD` succeeds. -/
  | accept (fd : Nat) (k : Socket) (added : Bool)
  /-- `accept` fails: nobody is waiting, or another error. -/
  | acceptEnds
  /-- `HandleEvent`, with what its system calls return. -/
  | handle (reads : List ReadResult) (readFails : Bool) (writes : List WriteResult)
  | connect
  | send (fd : Nat) (bytes : Bytes)
  | closeSending (fd : Nat)
  | hangUp (fd : Nat)
  /-- The client takes what was sent, which makes room for `n` bytes more. -/
  | take (fd : Nat) (n : Nat)
  | callStop
  | stopWakes
  /-- Something else changes the state behind the handler. -/
  | elsewhere (world : σ)

namespace EpollServer

def kMaxEvents : Nat := 64

/-- `epoll_wait` has something to report about the descriptor. -/
def pending (s : EpollServer σ) (fd : Nat) : Bool :=
  if fd = s.wakeFd then s.wake
  else if fd = s.listenFd then decide (s.backlog ≠ [])
  else
    match s.registrations fd, s.sockets fd with
    | some r, some k => r.ready && r.reports k
    | _, _ => false

/-- What `epoll_wait` reports about the descriptor. -/
def report (s : EpollServer σ) (fd : Nat) : Report :=
  match s.registrations fd, s.sockets fd with
  | some r, some k =>
    { fd := fd
      hangup := k.hup
      input := r.input && (decide (k.incoming ≠ []) || k.fin)
      output := r.output && decide (0 < k.room)
      client := some k.client }
  | _, _ => { fd := fd, input := true }

/-- Off the ready list. -/
def unready (registrations : Nat → Option Registration) (fds : List Nat) (fd : Nat) :
    Option Registration :=
  if fd ∈ fds then (registrations fd).map fun r => { r with ready := false } else registrations fd

/-- Three tables at one descriptor. -/
def setFd (s : EpollServer σ) (fd : Nat) (e : Option Entry) (k : Option Socket)
    (r : Option Registration) : EpollServer σ :=
  { s with
    connections := Function.update s.connections fd e
    sockets := Function.update s.sockets fd k
    registrations := Function.update s.registrations fd r }

/-- A socket changes, and the registration of the descriptor learns of it if `tells` says so. -/
def setSocket (s : EpollServer σ) (fd : Nat) (tells : Registration → Bool) (k : Socket) :
    EpollServer σ :=
  { s with
    sockets := Function.update s.sockets fd (some k)
    registrations := Function.update s.registrations fd
      ((s.registrations fd).map fun r => { r with ready := r.ready || tells r }) }

/-- What the client at the other end of `fd` does. -/
def clientStep (s : EpollServer σ) (fd : Nat) (tells : Registration → Bool)
    (change : Socket → Option Socket) : Option (EpollServer σ) :=
  match s.sockets fd with
  | none => none
  | some k => (change k).map (s.setSocket fd tells)

/-- The event that `HandleEvent` sees: the socket is read until it is empty. -/
def eventOf (e : Report) (k : Socket) (reads : List ReadResult) (readFails : Bool)
    (writes : List WriteResult) : ReadyEvent where
  hangup := e.hangup
  input := e.input
  output := e.output
  reads := reads ++ if readFails then [.failed] else if k.fin then [.eof] else []
  writes := writes

/-- What the system calls of `HandleEvent` can return: `read` gives what is there, calls fail only on
a socket that has been hung up, and `write` goes on until the queue or the room is used up. -/
def Possible (e : Report) (k : Socket) (reads : List ReadResult) (readFails : Bool)
    (writes : List WriteResult) (conn : Option Connection) (out : Bytes) : Prop :=
  (∀ r ∈ reads, r.Continues) ∧ (e.input = true → received reads = k.incoming) ∧
    (readFails = true ∨ WriteResult.failed ∈ writes → k.hup = true) ∧ out.length ≤ k.room ∧
    (e.output = true → ∀ c ∈ conn, c.writeBuffer = [] ∨ out.length = k.room)

instance (e : Report) (k : Socket) (reads : List ReadResult) (readFails : Bool)
    (writes : List WriteResult) (conn : Option Connection) (out : Bytes) :
    Decidable (Possible e k reads readFails writes conn out) :=
  inferInstanceAs (Decidable (_ ∧ _ ∧ _ ∧ _ ∧ _))

/-- `EpollServer::HandleEvent`; `RemoveConnection` where the connection is closed. -/
def handle (h : RequestHandler σ) (s : EpollServer σ) (e : Report) (reads : List ReadResult)
    (readFails : Bool) (writes : List WriteResult) : Option (EpollServer σ) :=
  match s.connections e.fd with
  | none => some s
  | some entry =>
    match s.sockets e.fd, s.registrations e.fd with
    | some k, some r =>
      let res := handleEvent h (eventOf e k reads readFails writes) s.world entry.conn
      if Possible e k reads readFails writes res.2.1 res.2.2 then
        let k' := k.handled e.input res.2.2
        some
          (match res.2.1 with
          | none => { s with world := res.1 }.setFd e.fd none none none
          | some conn =>
            { s with world := res.1 }.setFd e.fd (some { entry with conn := conn }) (some k')
              (some (registerFor conn r.ready k')))
      else none
    | _, _ => none

/-- The constructor, when it succeeds. -/
def start (world : σ) : EpollServer σ := { world := world }

def step (h : RequestHandler σ) (s : EpollServer σ) : EpollAction σ → Option (EpollServer σ)
  | .check =>
    match s.point with
    | .top => some { s with point := if s.stop then .returned Status.Ok else .waiting }
    | _ => none
  | .wait fds =>
    match s.point with
    | .waiting =>
      if fds ≠ [] ∧ fds.length ≤ kMaxEvents ∧ fds.Nodup ∧ ∀ fd ∈ fds, s.pending fd = true then
        some
          { s with
            point := .handling (fds.map s.report)
            registrations := unready s.registrations fds }
      else none
    | _ => none
  | .waitInterrupted =>
    match s.point with
    | .waiting => some { s with point := .top }
    | _ => none
  | .waitFails reason =>
    match s.point with
    | .waiting => some { s with point := .returned ⟨.kIOError, "epoll_wait: " ++ reason⟩ }
    | _ => none
  | .turn =>
    match s.point with
    | .handling [] => some { s with point := .top }
    | _ => none
  | .drainWake =>
    match s.point with
    | .handling (e :: batch) =>
      if e.fd = s.wakeFd then some { s with point := .handling batch, wake := false } else none
    | _ => none
  | .accept fd k added =>
    match s.point, s.backlog with
    | .handling (e :: _), client :: backlog =>
      if e.fd ≠ s.wakeFd ∧ e.fd = s.listenFd ∧ s.sockets fd = none ∧ fd ≠ s.listenFd ∧
          fd ≠ s.epollFd ∧ fd ≠ s.wakeFd ∧ k.client = client ∧ k.arrived = k.incoming ∧
          k.sent = [] then
        some
          (if added then
            { s with backlog := backlog }.setFd fd (some { client := client, conn := {} }) (some k)
              (some (registerFor {} false k))
          else { s with backlog := backlog })
      else none
    | _, _ => none
  | .acceptEnds =>
    match s.point with
    | .handling (e :: batch) =>
      if e.fd ≠ s.wakeFd ∧ e.fd = s.listenFd then some { s with point := .handling batch } else none
    | _ => none
  | .handle reads readFails writes =>
    match s.point with
    | .handling (e :: batch) =>
      if e.fd ≠ s.wakeFd ∧ e.fd ≠ s.listenFd then
        (s.handle h e reads readFails writes).map fun s' => { s' with point := .handling batch }
      else none
    | _ => none
  | .connect => some { s with backlog := s.backlog ++ [s.clients], clients := s.clients + 1 }
  | .send fd bytes =>
    s.clientStep fd (fun r => r.input) fun k =>
      if k.fin then none
      else some { k with incoming := k.incoming ++ bytes, arrived := k.arrived ++ bytes }
  | .closeSending fd => s.clientStep fd (fun _ => true) fun k => some { k with fin := true }
  | .hangUp fd => s.clientStep fd (fun _ => true) fun k => some { k with hup := true }
  | .take fd n =>
    s.clientStep fd (fun r => r.output) fun k => some { k with room := k.room + n }
  | .callStop => some { s with stop := true }
  | .stopWakes => if s.stop then some { s with wake := true, woken := true } else none
  | .elsewhere world => some { s with world := world }

end EpollServer

/-! ## What a step can do -/

open EpollServer

/-- What a client does to its socket: it adds to what has arrived, and what is there now was there
before or is told. -/
structure SocketChange (tells : Registration → Bool) (k k' : Socket) : Prop where
  client : k'.client = k.client
  sent : k'.sent = k.sent
  arrives : ∃ bytes, k'.incoming = k.incoming ++ bytes ∧ k'.arrived = k.arrived ++ bytes
  room : k.room ≤ k'.room
  hup : k.hup = true → k'.hup = true
  told : ∀ r : Registration, r.reports k' = true → r.reports k = true ∨ tells r = true

/-- The client whose action it is, by its descriptor. -/
def EpollAction.target : EpollAction σ → Option Nat
  | .send fd _ => some fd
  | .closeSending fd => some fd
  | .hangUp fd => some fd
  | .take fd _ => some fd
  | _ => none

/-- **What a step can do**: `Run` moves, one descriptor changes, or something happens outside. -/
inductive EpollMove (h : RequestHandler σ) (s : EpollServer σ) (a : EpollAction σ) :
    EpollServer σ → Prop where
  | checked (hpoint : s.point = .top) :
    EpollMove h s a { s with point := if s.stop then .returned Status.Ok else .waiting }
  | waited {fds : List Nat} (hpoint : s.point = .waiting) (hnodup : fds.Nodup)
      (hpending : ∀ fd ∈ fds, s.pending fd = true) :
    EpollMove h s a
      { s with
        point := .handling (fds.map s.report)
        registrations := unready s.registrations fds }
  | left {point : EpollPoint}
      (hpoint : s.point = .waiting ∨ s.point = .handling [])
      (hnext : point = .top ∨ ∃ status, point = .returned status) :
    EpollMove h s a { s with point := point }
  | drained {e : Report} {batch : List Report} (hpoint : s.point = .handling (e :: batch))
      (hfd : e.fd = s.wakeFd) : EpollMove h s a { s with point := .handling batch, wake := false }
  | accepted {fd client : Nat} {backlog : List Nat} {k : Socket} (hbacklog : s.backlog = client :: backlog)
      (hfree : s.sockets fd = none) (hlisten : fd ≠ s.listenFd) (hepoll : fd ≠ s.epollFd)
      (hwake : fd ≠ s.wakeFd) (hclient : k.client = client) (harrived : k.arrived = k.incoming)
      (hsent : k.sent = []) (haction : a = .accept fd k true) :
    EpollMove h s a
      ({ s with backlog := backlog }.setFd fd (some { client := client, conn := {} }) (some k)
        (some (registerFor {} false k)))
  | refused {client : Nat} {backlog : List Nat} (hbacklog : s.backlog = client :: backlog) :
    EpollMove h s a { s with backlog := backlog }
  | acceptEnded {e : Report} {batch : List Report} (hpoint : s.point = .handling (e :: batch))
      (hfd : e.fd = s.listenFd) : EpollMove h s a { s with point := .handling batch }
  | stale {e : Report} {batch : List Report} (hpoint : s.point = .handling (e :: batch))
      (hwake : e.fd ≠ s.wakeFd) (hlisten : e.fd ≠ s.listenFd) (hnone : s.connections e.fd = none) :
    EpollMove h s a { s with point := .handling batch }
  | handled {e : Report} {batch : List Report} {entry : Entry} {k : Socket} {r : Registration}
      {reads : List ReadResult} {readFails : Bool} {writes : List WriteResult}
      {conn : Option Connection} {out : Bytes} {world : σ} (hpoint : s.point = .handling (e :: batch))
      (hwake : e.fd ≠ s.wakeFd) (hlisten : e.fd ≠ s.listenFd)
      (hentry : s.connections e.fd = some entry) (hk : s.sockets e.fd = some k)
      (hr : s.registrations e.fd = some r)
      (hres : handleEvent h (eventOf e k reads readFails writes) s.world entry.conn =
        (world, conn, out))
      (hpossible : Possible e k reads readFails writes conn out) :
    EpollMove h s a
      ({ s with world := world, point := .handling batch }.setFd e.fd
        (conn.map fun c => { entry with conn := c })
        (conn.map fun _ => k.handled e.input out)
        (conn.map fun c => registerFor c r.ready (k.handled e.input out)))
  | connected :
    EpollMove h s a { s with backlog := s.backlog ++ [s.clients], clients := s.clients + 1 }
  | changed {fd : Nat} {tells : Registration → Bool} {k k' : Socket}
      (hk : s.sockets fd = some k) (hchange : SocketChange tells k k')
      (htarget : a.target = some fd) : EpollMove h s a (s.setSocket fd tells k')
  | stopped : EpollMove h s a { s with stop := true }
  | woke (hstop : s.stop = true) : EpollMove h s a { s with wake := true, woken := true }
  | elsewhere {world : σ} : EpollMove h s a { s with world := world }

section Inversion

variable {h : RequestHandler σ} {s s' : EpollServer σ} {a : EpollAction σ}

theorem clientStep_move {fd : Nat} {tells : Registration → Bool}
    {change : Socket → Option Socket} (htarget : a.target = some fd)
    (hchange : ∀ k k', change k = some k' → SocketChange tells k k')
    (hs : s.clientStep fd tells change = some s') : EpollMove h s a s' := by
  unfold clientStep at hs
  split at hs
  · cases hs
  · rename_i k hk
    obtain ⟨k', hk', rfl⟩ := Option.map_eq_some_iff.mp hs
    exact .changed hk (hchange k k' hk') htarget

theorem handle_move {e : Report} {batch : List Report} {reads : List ReadResult}
    {readFails : Bool} {writes : List WriteResult} (hpoint : s.point = .handling (e :: batch))
    (hwake : e.fd ≠ s.wakeFd) (hlisten : e.fd ≠ s.listenFd) {t : EpollServer σ}
    (hs : s.handle h e reads readFails writes = some t) :
    EpollMove h s a { t with point := .handling batch } := by
  unfold EpollServer.handle at hs
  split at hs
  · rename_i hnone
    cases hs
    exact .stale hpoint hwake hlisten hnone
  · rename_i entry hentry
    split at hs
    · rename_i k r hk hr
      cases hres : handleEvent h (eventOf e k reads readFails writes) s.world entry.conn with
      | mk world rest =>
        obtain ⟨conn, out⟩ := rest
        simp only [hres] at hs
        split at hs
        · rename_i hpossible
          cases hs
          have hm := EpollMove.handled (a := a) hpoint hwake hlisten hentry hk hr hres hpossible
          cases conn <;> exact hm
        · cases hs
    · cases hs

theorem epoll_move (hs : s.step h a = some s') : EpollMove h s a s' := by
  cases a with
  | check =>
    simp only [step] at hs
    split at hs
    · rename_i hpoint
      cases hs
      exact .checked hpoint
    · cases hs
  | wait fds =>
    simp only [step] at hs
    split at hs
    · rename_i hpoint
      split at hs
      · rename_i hguard
        cases hs
        exact .waited hpoint hguard.2.2.1 hguard.2.2.2
      · cases hs
    · cases hs
  | waitInterrupted =>
    simp only [step] at hs
    split at hs
    · rename_i hpoint
      cases hs
      exact .left (Or.inl hpoint) (Or.inl rfl)
    · cases hs
  | waitFails reason =>
    simp only [step] at hs
    split at hs
    · rename_i hpoint
      cases hs
      exact .left (Or.inl hpoint) (Or.inr ⟨_, rfl⟩)
    · cases hs
  | turn =>
    simp only [step] at hs
    split at hs
    · rename_i hpoint
      cases hs
      exact .left (Or.inr hpoint) (Or.inl rfl)
    · cases hs
  | drainWake =>
    simp only [step] at hs
    split at hs
    · rename_i e batch hpoint
      split at hs
      · rename_i hfd
        cases hs
        exact .drained hpoint hfd
      · cases hs
    · cases hs
  | accept fd k added =>
    simp only [step] at hs
    split at hs
    · rename_i e batch client backlog hpoint hbacklog
      split at hs
      · rename_i hguard
        obtain ⟨_, _, hfree, hlisten, hepoll, hwake, hclient, harrived, hsent⟩ := hguard
        cases hs
        cases added with
        | true => exact .accepted hbacklog hfree hlisten hepoll hwake hclient harrived hsent rfl
        | false => exact .refused hbacklog
      · cases hs
    · cases hs
  | acceptEnds =>
    simp only [step] at hs
    split at hs
    · rename_i e batch hpoint
      split at hs
      · rename_i hguard
        cases hs
        exact .acceptEnded hpoint hguard.2
      · cases hs
    · cases hs
  | handle reads readFails writes =>
    simp only [step] at hs
    split at hs
    · rename_i e batch hpoint
      split at hs
      · rename_i hguard
        obtain ⟨t, ht, rfl⟩ := Option.map_eq_some_iff.mp hs
        exact handle_move hpoint hguard.1 hguard.2 ht
      · cases hs
    · cases hs
  | connect =>
    cases hs
    exact .connected
  | send fd bytes =>
    refine clientStep_move rfl (fun k k' hk => ?_) hs
    split at hk
    · cases hk
    · cases hk
      refine ⟨rfl, rfl, ⟨bytes, rfl, rfl⟩, Nat.le_refl _, id, fun r hr => ?_⟩
      cases hin : r.input with
      | true => exact Or.inr rfl
      | false => exact Or.inl (by simpa [Registration.reports, hin] using hr)
  | closeSending fd =>
    refine clientStep_move rfl (fun k k' hk => ?_) hs
    cases hk
    exact ⟨rfl, rfl, ⟨[], by simp, by simp⟩, Nat.le_refl _, id, fun _ _ => Or.inr rfl⟩
  | hangUp fd =>
    refine clientStep_move rfl (fun k k' hk => ?_) hs
    cases hk
    exact ⟨rfl, rfl, ⟨[], by simp, by simp⟩, Nat.le_refl _, fun _ => rfl, fun _ _ => Or.inr rfl⟩
  | take fd n =>
    refine clientStep_move rfl (fun k k' hk => ?_) hs
    cases hk
    refine ⟨rfl, rfl, ⟨[], by simp, by simp⟩, Nat.le_add_right _ _, id, fun r hr => ?_⟩
    cases hout : r.output with
    | true => exact Or.inr rfl
    | false => exact Or.inl (by simpa [Registration.reports, hout] using hr)
  | callStop =>
    cases hs
    exact .stopped
  | stopWakes =>
    simp only [step] at hs
    split at hs
    · rename_i hstop
      cases hs
      exact .woke hstop
    · cases hs
  | elsewhere world =>
    cases hs
    exact .elsewhere

end Inversion

/-! ## Requests and responses of a connection -/

/-- A request that was received and the response that was queued for it. -/
structure Exchange where
  request : Message
  frame : Bytes
  response : Bytes

/-- The frame is the encoding of the request, and the response is what the handler answered. -/
def Exchange.Valid (h : RequestHandler σ) (x : Exchange) : Prop :=
  x.request.encode = .ok x.frame ∧ ∃ s s', h.answer s x.request = some (s', .ok x.response)

/-- What the client has sent is the frames of some requests, a beginning of a frame, and what has
not been read yet; what it has been sent and what is queued are the responses to these requests. -/
def Exchanged (h : RequestHandler σ) (conn : Connection) (k : Socket) : Prop :=
  ∃ xs : List Exchange, (∀ x ∈ xs, x.Valid h) ∧
    k.arrived = (xs.map Exchange.frame).flatten ++ conn.readBuffer ++ k.incoming ∧
    parseFrame conn.readBuffer = .more ∧
    k.sent ++ conn.writeBuffer = (xs.map Exchange.response).flatten

section Exchanges

variable {h : RequestHandler σ}

/-- A reaction after which the loop goes on has answered the request. -/
theorem frameReaction_goes {s : σ} {m : Message} (hgo : (frameReaction h accepting s m).goOn = true) :
    ∃ s' encoded, h.answer s m = some (s', .ok encoded) ∧
      frameReaction h accepting s m = ⟨s', [.handled m, .wrote encoded], true⟩ := by
  rcases hans : h.answer s m with _ | ⟨s', e | encoded⟩
  · simp [frameReaction, hans] at hgo
  · simp [frameReaction, hans] at hgo
  · exact ⟨s', encoded, rfl, by simp only [frameReaction, hans, accepting]⟩

/-- **The loop of `ProcessFrames` that goes on** has answered every complete frame of the buffer. -/
theorem consumed_exchanges {s : σ} {buffer rest : Bytes} {out : List SessionEvent}
    (hc : Consumed parseFrame (frameReaction h accepting) s buffer out rest) :
    parseFrame rest = .more ∧ ∃ xs : List Exchange, (∀ x ∈ xs, x.Valid h) ∧
      buffer = (xs.map Exchange.frame).flatten ++ rest ∧
      written out = (xs.map Exchange.response).flatten := by
  induction hc with
  | stop hmore => exact ⟨hmore, [], by simp, by simp, rfl⟩
  | @take s b b' rest m out hparse hgo _ ih =>
    obtain ⟨hmore, xs, hvalid, hbuffer, hwritten⟩ := ih
    obtain ⟨s', encoded, hans, hreact⟩ := frameReaction_goes hgo
    obtain ⟨frame, hframe, hb⟩ := Protocol.tryParseFrame_sound (parseFrame_done.mp hparse)
    refine ⟨hmore, ⟨m, frame, encoded⟩ :: xs, ?_, ?_, ?_⟩
    · intro x hx
      rcases List.mem_cons.mp hx with rfl | hx
      · exact ⟨hframe, s, s', hans⟩
      · exact hvalid x hx
    · rw [hb, hbuffer]
      simp
    · rw [hreact]
      simp [written, hwritten]

/-- `OnWritable` on a connection that stays open moves bytes from the queue to the socket. -/
theorem onWritable_open :
    ∀ (writes : List WriteResult) (conn : Connection), (conn.onWritable writes).2.closed = false →
      (conn.onWritable writes).1 ++ (conn.onWritable writes).2.writeBuffer = conn.writeBuffer ∧
        (conn.onWritable writes).2.readBuffer = conn.readBuffer := by
  intro writes
  induction writes with
  | nil =>
    intro conn _
    exact ⟨rfl, rfl⟩
  | cons w writes ih =>
    intro conn hopen
    cases w with
    | accepted n =>
      simp only [Connection.onWritable] at hopen ⊢
      split
      · exact ⟨rfl, rfl⟩
      · rename_i hne
        rw [if_neg hne] at hopen
        obtain ⟨hbytes, hread⟩ := ih { conn with writeBuffer := conn.writeBuffer.drop n } hopen
        refine ⟨?_, hread⟩
        rw [List.append_assoc, hbytes, List.take_append_drop]
    | interrupted => exact ih conn hopen
    | failed =>
      simp only [Connection.onWritable] at hopen ⊢
      split
      · exact ⟨rfl, rfl⟩
      · rename_i hne
        rw [if_neg hne] at hopen
        cases hopen

/-- `OnReadable` on a connection that stays open: the reads have neither failed nor come to the end,
and every complete frame is answered. -/
theorem onReadable_open {s : σ} :
    ∀ (reads : List ReadResult) (conn : Connection),
      (conn.onReadable h s reads).2.closed = false →
      ReadResult.failed ∉ reads ∧ ReadResult.eof ∉ reads ∧
        (frameLoop h accepting s (conn.readBuffer ++ received reads)).buffer =
          some (conn.onReadable h s reads).2.readBuffer ∧
        (conn.onReadable h s reads).2.writeBuffer = conn.writeBuffer ++
          written (frameLoop h accepting s (conn.readBuffer ++ received reads)).out := by
  intro reads
  induction reads with
  | nil =>
    intro conn hopen
    simp only [Connection.onReadable, Connection.processFrames, received, List.append_nil]
      at hopen ⊢
    obtain ⟨_, hsome⟩ := Bool.or_eq_false_iff.mp hopen
    obtain ⟨rest, hrest⟩ := Option.isSome_iff_exists.mp (by simpa using hsome)
    refine ⟨by simp, by simp, ?_, trivial⟩
    rw [hrest, Option.getD_some]
  | cons r reads ih =>
    intro conn hopen
    cases r with
    | data chunk =>
      obtain ⟨hfailed, heof, hbuffer, hqueue⟩ :=
        ih { conn with readBuffer := conn.readBuffer ++ chunk } hopen
      rw [List.append_assoc] at hbuffer hqueue
      exact ⟨by simp [hfailed], by simp [heof], hbuffer, hqueue⟩
    | interrupted =>
      obtain ⟨hfailed, heof, hbuffer, hqueue⟩ := ih conn hopen
      exact ⟨by simp [hfailed], by simp [heof], hbuffer, hqueue⟩
    | eof =>
      simp [Connection.onReadable, Connection.processFrames, Connection.markClosed] at hopen
    | failed => cases hopen

/-- A connection that `HandleEvent` leaves in the table was not hung up, and is what `OnReadable` and
`OnWritable` made of it. -/
theorem handleEvent_stays {ev : ReadyEvent} {s s' : σ} {conn c : Connection} {out : Bytes}
    (hres : handleEvent h ev s conn = (s', some c, out)) :
    ev.hangup = false ∧ c.closed = false ∧
      ∃ mid : Connection, mid.closed = false ∧
        (mid = if ev.input then (conn.onReadable h s ev.reads).2 else conn) ∧
        out ++ c.writeBuffer = mid.writeBuffer ∧ c.readBuffer = mid.readBuffer ∧
        (ev.output = false → c = mid ∧ out = []) := by
  unfold handleEvent at hres
  cases hhang : ev.hangup with
  | true =>
    rw [hhang, if_pos rfl] at hres
    cases (Prod.mk.inj (Prod.mk.inj hres).2).1
  | false =>
    rw [hhang, if_neg (by decide)] at hres
    refine ⟨rfl, ?_⟩
    generalize hr : (if ev.input = true then conn.onReadable h s ev.reads else (s, conn)) = r
      at hres
    have hmid : r.2 = if ev.input then (conn.onReadable h s ev.reads).2 else conn := by
      rw [← hr]
      split <;> rfl
    simp only at hres
    cases hclosed : r.2.closed with
    | true =>
      simp only [hclosed, Bool.not_true, Bool.false_and, Bool.false_eq_true, if_false, if_true] at hres
      cases (Prod.mk.inj (Prod.mk.inj hres).2).1
    | false =>
      cases hout : ev.output with
      | false =>
        simp only [hclosed, hout, Bool.and_false, Bool.false_eq_true, if_false] at hres
        cases hres
        exact ⟨hclosed, r.2, hclosed, hmid, rfl, rfl, fun _ => ⟨rfl, rfl⟩⟩
      | true =>
        simp only [hclosed, hout, Bool.not_false, Bool.and_true, if_true] at hres
        cases hw : (r.2.onWritable ev.writes).2.closed with
        | true =>
          simp only [hw, if_true] at hres
          cases (Prod.mk.inj (Prod.mk.inj hres).2).1
        | false =>
          simp only [hw, Bool.false_eq_true, if_false] at hres
          obtain ⟨hbytes, hread⟩ := onWritable_open ev.writes r.2 hw
          cases hres
          exact ⟨hw, r.2, hclosed, hmid, hbytes, hread, by simp⟩

/-- **`HandleEvent` keeps the exchanges in order.** -/
theorem Exchanged.handled {e : Report} {k : Socket} {reads : List ReadResult} {readFails : Bool}
    {writes : List WriteResult} {conn c : Connection} {out : Bytes} {s s' : σ}
    (hx : Exchanged h conn k)
    (hres : handleEvent h (eventOf e k reads readFails writes) s conn = (s', some c, out))
    (hpossible : Possible e k reads readFails writes (some c) out) :
    Exchanged h c (k.handled e.input out) := by
  obtain ⟨xs, hvalid, harrived, hmore, hsent⟩ := hx
  obtain ⟨_, _, mid, hmidopen, hmid, hqueue, hread, _⟩ := handleEvent_stays hres
  obtain ⟨hgo, hreads, _⟩ := hpossible
  cases hin : e.input with
  | false =>
    have hsame : mid = conn := by simpa [eventOf, hin] using hmid
    subst hsame
    refine ⟨xs, hvalid, ?_, ?_, ?_⟩
    · simp [hread, harrived]
    · rw [hread]
      exact hmore
    · rw [Socket.handled_sent, List.append_assoc, hqueue]
      exact hsent
  | true =>
    have hmid' : mid = (conn.onReadable h s (eventOf e k reads readFails writes).reads).2 := by
      simpa [eventOf, hin] using hmid
    have hstill := hmid' ▸ hmidopen
    obtain ⟨hfailed, heof, hbuffer, hqueued⟩ := onReadable_open _ conn hstill
    -- the connection is open, so all reads delivered bytes
    have hall : received (eventOf e k reads readFails writes).reads = k.incoming := by
      cases readFails with
      | true => exact absurd (by simp [eventOf]) hfailed
      | false =>
        cases hfin : k.fin with
        | true => exact absurd (by simp [eventOf, hfin]) heof
        | false => simpa [eventOf, hfin] using hreads hin
    rw [hall] at hbuffer hqueued
    rw [← hmid'] at hbuffer hqueued
    obtain ⟨hmore', ys, hvalid', hbytes, hwritten⟩ :=
      consumed_exchanges (drainAll_consumed parseFrame_stable hbuffer)
    refine ⟨xs ++ ys, ?_, ?_, ?_, ?_⟩
    · intro x hx
      rcases List.mem_append.mp hx with hx | hx
      · exact hvalid x hx
      · exact hvalid' x hx
    · rw [Socket.handled_arrived, harrived, List.append_assoc, hbytes, hread]
      simp
    · rw [hread]
      exact hmore'
    · have hout : written (frameLoop h accepting s (conn.readBuffer ++ k.incoming)).out =
          (ys.map Exchange.response).flatten := hwritten
      rw [Socket.handled_sent, List.append_assoc, hqueue, hqueued, ← List.append_assoc, hsent, hout]
      simp

end Exchanges

/-! ## The invariant -/

/-- The events that are still to be handled. -/
def EpollServer.batch (s : EpollServer σ) : List Report :=
  match s.point with
  | .handling batch => batch
  | _ => []

/-- What holds of a connection, its socket and its registration; `reported` says that an event about
it is still to be handled. -/
structure Live (h : RequestHandler σ) (reported : Prop) (e : Entry) (k : Socket)
    (r : Registration) : Prop where
  client : e.client = k.client
  isOpen : e.conn.closed = false
  input : r.input = e.conn.wantsInput
  output : r.output = e.conn.wantsOutput
  /-- What is there to report is on the ready list, or has been reported. -/
  armed : ¬ reported → r.reports k = true → r.ready = true
  exchanged : Exchanged h e.conn k

/-- What holds at a descriptor: nothing is there, or a connection is. -/
inductive AtFd (h : RequestHandler σ) (s : EpollServer σ) (fd : Nat) : Prop where
  | free (he : s.connections fd = none) (hk : s.sockets fd = none)
      (hr : s.registrations fd = none)
  | used {e : Entry} {k : Socket} {r : Registration} (he : s.connections fd = some e)
      (hk : s.sockets fd = some k) (hr : s.registrations fd = some r)
      (hlive : Live h (fd ∈ s.batch.map Report.fd) e k r) (hlisten : fd ≠ s.listenFd)
      (hwake : fd ≠ s.wakeFd) (hclient : k.client < s.clients) (hnew : k.client ∉ s.backlog)

/-- An event about a connection that is there: its flags still hold. -/
structure Current (s : EpollServer σ) (e : Report) (entry : Entry) (k : Socket) : Prop where
  table : s.connections e.fd = some entry
  socket : s.sockets e.fd = some k
  client : e.client = some entry.client
  input : e.input = true → entry.conn.wantsInput = true
  output : e.output = true → 0 < k.room
  hangup : e.hangup = true → k.hup = true

/-- What holds of the server in every run. -/
structure EpollServer.Sound (h : RequestHandler σ) (s : EpollServer σ) : Prop where
  fds : ∀ fd, AtFd h s fd
  ownFds : s.listenFd ≠ s.wakeFd
  once : (s.batch.map Report.fd).Nodup
  current : ∀ e ∈ s.batch, e.fd = s.wakeFd ∨ e.fd = s.listenFd ∨ ∃ entry k, Current s e entry k
  distinct : ∀ fd fd' k k', s.sockets fd = some k → s.sockets fd' = some k' →
    k.client = k'.client → fd = fd'
  newcomers : s.backlog.Nodup ∧ ∀ c ∈ s.backlog, c < s.clients
  stopping : s.woken = true → s.stop = true
  waking : s.woken = true → s.point = .waiting → s.wake = true

section Keeping

variable {h : RequestHandler σ} {s s' : EpollServer σ}

theorem AtFd.same {fd : Nat} (hfd : AtFd h s fd) (he : s'.connections fd = s.connections fd)
    (hk : s'.sockets fd = s.sockets fd) (hr : s'.registrations fd = s.registrations fd)
    (hbatch : fd ∈ s.batch.map Report.fd → fd ∈ s'.batch.map Report.fd)
    (hlisten : s'.listenFd = s.listenFd) (hwake : s'.wakeFd = s.wakeFd)
    (hclients : s.clients ≤ s'.clients)
    (hbacklog : ∀ c < s.clients, c ∈ s'.backlog → c ∈ s.backlog) : AtFd h s' fd := by
  cases hfd with
  | free he₀ hk₀ hr₀ => exact .free (he.trans he₀) (hk.trans hk₀) (hr.trans hr₀)
  | used he₀ hk₀ hr₀ hlive hl hw hclient hnew =>
    refine .used (he.trans he₀) (hk.trans hk₀) (hr.trans hr₀) ?_ (hlisten ▸ hl) (hwake ▸ hw)
      (Nat.lt_of_lt_of_le hclient hclients) (fun hmem => hnew (hbacklog _ hclient hmem))
    exact { hlive with armed := fun hnot => hlive.armed fun hmem => hnot (hbatch hmem) }

/-- An event about another descriptor than the one that changes. -/
theorem Current.same {e : Report} {entry : Entry} {k : Socket} (hc : Current s e entry k)
    (he : s'.connections e.fd = s.connections e.fd) (hk : s'.sockets e.fd = s.sockets e.fd) :
    Current s' e entry k :=
  { hc with table := he.trans hc.table, socket := hk.trans hc.socket }

end Keeping

namespace EpollServer

variable {h : RequestHandler σ} {s s' : EpollServer σ}

theorem batch_handling {batch : List Report} (hpoint : s.point = .handling batch) :
    s.batch = batch := by
  simp [EpollServer.batch, hpoint]

/-- **A step that changes no table**: only the point, the batch, the backlog and the flags. -/
theorem Sound.tables (hs : s.Sound h) (he : s'.connections = s.connections)
    (hk : s'.sockets = s.sockets) (hr : s'.registrations = s.registrations)
    (hlisten : s'.listenFd = s.listenFd) (hwake : s'.wakeFd = s.wakeFd)
    (hsub : s'.batch.Sublist s.batch)
    (hgone : ∀ e ∈ s.batch, e ∈ s'.batch ∨ e.fd = s.wakeFd ∨ e.fd = s.listenFd ∨
      s.connections e.fd = none)
    (hclients : s.clients ≤ s'.clients)
    (hbacklog : ∀ c < s.clients, c ∈ s'.backlog → c ∈ s.backlog)
    (hnew : s'.backlog.Nodup ∧ ∀ c ∈ s'.backlog, c < s'.clients)
    (hstop : s'.woken = true → s'.stop = true)
    (hpoint : s'.woken = true → s'.point = .waiting → s'.wake = true) : s'.Sound h := by
  refine ⟨fun fd => ?_, ?_, hs.once.sublist (hsub.map _), ?_, ?_, hnew, hstop, hpoint⟩
  · cases hs.fds fd with
    | free he₀ hk₀ hr₀ => exact .free (he ▸ he₀) (hk ▸ hk₀) (hr ▸ hr₀)
    | used he₀ hk₀ hr₀ hlive hl hw hclient hbl =>
      refine AtFd.same (.used he₀ hk₀ hr₀ hlive hl hw hclient hbl) (by rw [he]) (by rw [hk])
        (by rw [hr]) ?_ hlisten hwake hclients hbacklog
      intro hmem
      obtain ⟨e, he', rfl⟩ := List.mem_map.mp hmem
      rcases hgone e he' with h' | h' | h' | h'
      · exact List.mem_map_of_mem h'
      · exact absurd h' hw
      · exact absurd h' hl
      · rw [h'] at he₀
        cases he₀
  · rw [hlisten, hwake]
    exact hs.ownFds
  · intro e hmem
    rw [hlisten, hwake]
    rcases hs.current e (hsub.subset hmem) with h' | h' | ⟨entry, k, hc⟩
    · exact Or.inl h'
    · exact Or.inr (Or.inl h')
    · exact Or.inr (Or.inr ⟨entry, k, hc.same (by rw [he]) (by rw [hk])⟩)
  · rw [hk]
    exact hs.distinct

theorem Sound.popped (hs : s.Sound h) {e : Report} {batch : List Report}
    (hpoint : s.point = .handling (e :: batch))
    (he : e.fd = s.wakeFd ∨ e.fd = s.listenFd ∨ s.connections e.fd = none) {wake : Bool} :
    ({ s with point := .handling batch, wake := wake } : EpollServer σ).Sound h := by
  have hbatch := batch_handling hpoint
  refine hs.tables rfl rfl rfl rfl rfl ?_ ?_ (Nat.le_refl _) (fun _ _ hc => hc) hs.newcomers
    hs.stopping (by simp)
  · rw [hbatch]
    exact List.sublist_cons_self e batch
  · intro e' he'
    rw [hbatch] at he'
    rcases List.mem_cons.mp he' with rfl | hmem
    · exact Or.inr he
    · exact Or.inl hmem

theorem sound_start (world : σ) : (start world).Sound h where
  fds _ := .free rfl rfl rfl
  ownFds := by simp [start]
  once := List.nodup_nil
  current e he := by cases he
  distinct _ _ _ _ hk _ _ := by cases hk
  newcomers := ⟨List.nodup_nil, fun _ hc => by cases hc⟩
  stopping hw := by cases hw
  waking hw _ := by cases hw

@[simp] theorem report_fd (fd : Nat) : (s.report fd).fd = fd := by
  unfold report
  split <;> rfl

theorem map_report_fd (fds : List Nat) : (fds.map s.report).map Report.fd = fds := by
  simp [Function.comp_def]

/-- An event that `epoll_wait` reports is about a connection of the table. -/
theorem Sound.reported (hs : s.Sound h) {fd : Nat} (hpending : s.pending fd = true) :
    fd = s.wakeFd ∨ fd = s.listenFd ∨ ∃ entry k, Current s (s.report fd) entry k := by
  by_cases hwake : fd = s.wakeFd
  · exact Or.inl hwake
  by_cases hlisten : fd = s.listenFd
  · exact Or.inr (Or.inl hlisten)
  refine Or.inr (Or.inr ?_)
  cases hs.fds fd with
  | free _ hk hr => simp [pending, hwake, hlisten, hk, hr] at hpending
  | @used e k r he hk hr hlive _ _ _ _ =>
    have hreport : s.report fd =
        { fd := fd
          hangup := k.hup
          input := r.input && (decide (k.incoming ≠ []) || k.fin)
          output := r.output && decide (0 < k.room)
          client := some k.client } := by
      simp only [report, hr, hk]
    refine ⟨e, k, ?_⟩
    rw [hreport]
    refine ⟨he, hk, by rw [hlive.client], fun hin => ?_, fun hout => ?_, fun hup => hup⟩
    · rw [← hlive.input]
      exact (Bool.and_eq_true_iff.mp hin).1
    · exact of_decide_eq_true (Bool.and_eq_true_iff.mp hout).2

theorem sound_waited (hs : s.Sound h) {fds : List Nat} (hpoint : s.point = .waiting)
    (hnodup : fds.Nodup) (hpending : ∀ fd ∈ fds, s.pending fd = true) :
    ({ s with
        point := .handling (fds.map s.report)
        registrations := unready s.registrations fds } : EpollServer σ).Sound h := by
  have hnil : s.batch = [] := by simp [EpollServer.batch, hpoint]
  have hnone : ∀ fd, fd ∉ s.batch.map Report.fd := by simp [hnil]
  refine ⟨fun fd => ?_, hs.ownFds, ?_, ?_, hs.distinct, hs.newcomers, hs.stopping, by simp⟩
  · cases hs.fds fd with
    | free he hk hr =>
      refine .free he hk ?_
      simp only [unready, hr, Option.map_none, ite_self]
    | @used e k r he hk hr hlive hlisten hwake hclient hnew =>
      have hfds : ((fds.map s.report).map Report.fd) = fds := map_report_fd fds
      by_cases hmem : fd ∈ fds
      · refine .used (r := { r with ready := false }) he hk ?_ ?_ hlisten hwake hclient hnew
        · simp only [unready, if_pos hmem, hr, Option.map_some]
        · refine ⟨hlive.client, hlive.isOpen, hlive.input, hlive.output, fun hnot => ?_,
            hlive.exchanged⟩
          refine absurd ?_ hnot
          show fd ∈ ((fds.map s.report).map Report.fd)
          rw [hfds]
          exact hmem
      · refine .used (r := r) he hk ?_ ?_ hlisten hwake hclient hnew
        · simp only [unready, if_neg hmem, hr]
        · exact { hlive with armed := fun _ => hlive.armed (hnone fd) }
  · show ((fds.map s.report).map Report.fd).Nodup
    rw [map_report_fd]
    exact hnodup
  · intro e he
    obtain ⟨fd, hfd, rfl⟩ := List.mem_map.mp he
    rw [report_fd]
    rcases hs.reported (hpending fd hfd) with hc | hc | ⟨entry, k, hc⟩
    · exact Or.inl hc
    · exact Or.inr (Or.inl hc)
    · exact Or.inr (Or.inr ⟨entry, k, { hc with }⟩)

theorem sound_accepted (hs : s.Sound h) {fd client : Nat} {backlog : List Nat} {k : Socket}
    (hbacklog : s.backlog = client :: backlog) (hfree : s.sockets fd = none)
    (hlisten : fd ≠ s.listenFd) (hwake : fd ≠ s.wakeFd) (hclient : k.client = client)
    (harrived : k.arrived = k.incoming) (hsent : k.sent = []) :
    ({ s with backlog := backlog }.setFd fd (some { client := client, conn := {} }) (some k)
      (some (registerFor {} false k))).Sound h := by
  obtain ⟨hnodup, hlt⟩ := hs.newcomers
  rw [hbacklog] at hnodup hlt
  obtain ⟨hnot, hnodup⟩ := List.nodup_cons.mp hnodup
  have hsub : ∀ c ∈ backlog, c ∈ s.backlog := by
    intro c hc
    rw [hbacklog]
    exact List.mem_cons_of_mem _ hc
  refine ⟨fun fd' => ?_, hs.ownFds, hs.once, ?_, ?_, ⟨hnodup, fun c hc => ?_⟩, hs.stopping,
    hs.waking⟩
  · by_cases hfd : fd' = fd
    · subst hfd
      refine .used (e := { client := client, conn := {} }) (k := k) (r := registerFor {} false k)
        (by simp [setFd]) (by simp [setFd]) (by simp [setFd]) ?_ hlisten hwake ?_ ?_
      · refine ⟨hclient.symm, rfl, rfl, rfl, fun _ hreports => ?_, ?_⟩
        · simpa [registerFor, Registration.reports] using hreports
        · exact ⟨[], by simp, by simp [harrived], rfl, by simp [hsent]⟩
      · rw [hclient]
        exact hlt client List.mem_cons_self
      · rw [hclient]
        exact hnot
    · exact AtFd.same (hs.fds fd') (by simp [setFd, hfd]) (by simp [setFd, hfd])
        (by simp [setFd, hfd]) id rfl rfl (Nat.le_refl _) (fun c _ hc => hsub c hc)
  · intro e he
    rcases hs.current e he with hc | hc | ⟨entry, k₀, hc⟩
    · exact Or.inl hc
    · exact Or.inr (Or.inl hc)
    · have hne : e.fd ≠ fd := by
        rintro rfl
        exact absurd (hc.socket.symm.trans hfree) (by simp)
      exact Or.inr (Or.inr ⟨entry, k₀, hc.same (by simp [setFd, hne]) (by simp [setFd, hne])⟩)
  · have hother : ∀ fd' k', s.sockets fd' = some k' → k'.client ≠ client := by
      intro fd' k' hk' heq
      cases hs.fds fd' with
      | free _ hnone _ =>
        rw [hnone] at hk'
        cases hk'
      | used _ hk₀ _ _ _ _ _ hnew =>
        rw [hk₀] at hk'
        cases hk'
        exact hnew (by rw [heq, hbacklog]; exact List.mem_cons_self)
    intro fd₁ fd₂ k₁ k₂ hk₁ hk₂ heq
    simp only [setFd, Function.update_apply] at hk₁ hk₂
    split at hk₁
    · cases hk₁
      split at hk₂
      · rename_i h₁ h₂
        rw [h₁, h₂]
      · exact absurd (heq.symm.trans hclient) (hother fd₂ k₂ hk₂)
    · split at hk₂
      · cases hk₂
        exact absurd (heq.trans hclient) (hother fd₁ k₁ hk₁)
      · exact hs.distinct fd₁ fd₂ k₁ k₂ hk₁ hk₂ heq
  · exact hlt c (List.mem_cons_of_mem _ hc)

theorem sound_handled (hs : s.Sound h) {e : Report} {batch : List Report} {entry : Entry}
    {k : Socket} {r : Registration} {reads : List ReadResult} {readFails : Bool}
    {writes : List WriteResult} {conn : Option Connection} {out : Bytes} {world : σ}
    (hpoint : s.point = .handling (e :: batch)) (hentry : s.connections e.fd = some entry)
    (hk : s.sockets e.fd = some k) (hr : s.registrations e.fd = some r)
    (hres : handleEvent h (eventOf e k reads readFails writes) s.world entry.conn =
      (world, conn, out))
    (hpossible : Possible e k reads readFails writes conn out) :
    ({ s with world := world, point := .handling batch }.setFd e.fd
      (conn.map fun c => { entry with conn := c })
      (conn.map fun _ => k.handled e.input out)
      (conn.map fun c => registerFor c r.ready (k.handled e.input out))).Sound h := by
  have hbatch := batch_handling hpoint
  have honce := hs.once
  rw [hbatch, List.map_cons] at honce
  obtain ⟨hnot, honce⟩ := List.nodup_cons.mp honce
  have hsubset : ∀ e' ∈ batch, e' ∈ s.batch := by
    intro e' he'
    rw [hbatch]
    exact List.mem_cons_of_mem _ he'
  refine ⟨fun fd => ?_, hs.ownFds, honce, ?_, ?_, hs.newcomers, hs.stopping, by simp [setFd]⟩
  · by_cases hfd : fd = e.fd
    · subst hfd
      cases conn with
      | none => exact .free (by simp [setFd]) (by simp [setFd]) (by simp [setFd])
      | some c =>
        cases hs.fds e.fd with
        | free he _ _ =>
          rw [he] at hentry
          cases hentry
        | used he₀ hk₀ hr₀ hlive hlisten hwake hclient hnew =>
          rw [hentry] at he₀
          rw [hk] at hk₀
          rw [hr] at hr₀
          cases he₀
          cases hk₀
          cases hr₀
          obtain ⟨_, hopen, _⟩ := handleEvent_stays hres
          refine .used (e := { entry with conn := c }) (k := k.handled e.input out)
            (r := registerFor c r.ready (k.handled e.input out)) (by simp [setFd]) (by simp [setFd])
            (by simp [setFd]) ?_ hlisten hwake hclient hnew
          refine ⟨hlive.client, hopen, rfl, rfl, fun _ hreports => ?_,
            hlive.exchanged.handled hres hpossible⟩
          simp only [registerFor, Bool.or_eq_true]
          exact Or.inr hreports
    · refine AtFd.same (hs.fds fd) (by simp [setFd, hfd]) (by simp [setFd, hfd])
        (by simp [setFd, hfd]) ?_ rfl rfl (Nat.le_refl _) (fun _ _ hc => hc)
      rw [hbatch, List.map_cons]
      intro hmem
      exact (List.mem_cons.mp hmem).resolve_left hfd
  · intro e' he'
    rcases hs.current e' (hsubset e' he') with hc | hc | ⟨entry', k', hc⟩
    · exact Or.inl hc
    · exact Or.inr (Or.inl hc)
    · have hne : e'.fd ≠ e.fd := by
        intro heq
        exact hnot (heq ▸ List.mem_map_of_mem he')
      exact Or.inr (Or.inr ⟨entry', k', hc.same (by simp [setFd, hne]) (by simp [setFd, hne])⟩)
  · -- the socket of `e.fd` has the same client as before
    have hback : ∀ fd k', (Function.update s.sockets e.fd
        (conn.map fun _ => k.handled e.input out)) fd = some k' →
        ∃ k₀, s.sockets fd = some k₀ ∧ k₀.client = k'.client := by
      intro fd k' hk'
      rw [Function.update_apply] at hk'
      split at hk'
      · rename_i hfd
        obtain ⟨c, _, rfl⟩ := Option.map_eq_some_iff.mp hk'
        exact ⟨k, hfd ▸ hk, rfl⟩
      · exact ⟨k', hk', rfl⟩
    intro fd₁ fd₂ k₁ k₂ hk₁ hk₂ heq
    obtain ⟨k₁', hk₁', hc₁⟩ := hback fd₁ k₁ hk₁
    obtain ⟨k₂', hk₂', hc₂⟩ := hback fd₂ k₂ hk₂
    exact hs.distinct fd₁ fd₂ k₁' k₂' hk₁' hk₂' (hc₁.trans (heq.trans hc₂.symm))

theorem sound_changed (hs : s.Sound h) {fd : Nat} {tells : Registration → Bool} {k k' : Socket}
    (hk : s.sockets fd = some k) (hchange : SocketChange tells k k') :
    (s.setSocket fd tells k').Sound h := by
  refine ⟨fun fd' => ?_, hs.ownFds, hs.once, ?_, ?_, hs.newcomers, hs.stopping, hs.waking⟩
  · by_cases hfd : fd' = fd
    · subst hfd
      cases hs.fds fd' with
      | free _ hnone _ =>
        rw [hnone] at hk
        cases hk
      | @used e _ r he hk₀ hr hlive hlisten hwake hclient hnew =>
        rw [hk] at hk₀
        cases hk₀
        refine .used (e := e) (k := k') (r := { r with ready := r.ready || tells r })
          (by simpa [setSocket] using he) (by simp [setSocket])
          (by simp [setSocket, hr]) ?_ hlisten hwake (hchange.client ▸ hclient)
          (hchange.client ▸ hnew)
        refine ⟨hlive.client.trans hchange.client.symm, hlive.isOpen, hlive.input, hlive.output,
          fun hnot hreports => ?_, ?_⟩
        · rw [Bool.or_eq_true]
          exact (hchange.told r hreports).imp (hlive.armed hnot) id
        · obtain ⟨xs, hvalid, harrived, hmore, hsent⟩ := hlive.exchanged
          obtain ⟨bytes, hin, harr⟩ := hchange.arrives
          refine ⟨xs, hvalid, ?_, hmore, ?_⟩
          · rw [harr, harrived, hin]
            simp only [List.append_assoc]
          · rw [hchange.sent]
            exact hsent
    · exact AtFd.same (hs.fds fd') rfl (by simp [setSocket, hfd]) (by simp [setSocket, hfd]) id rfl
        rfl (Nat.le_refl _) (fun _ _ hc => hc)
  · intro e he
    rcases hs.current e he with hc | hc | ⟨entry, k₀, hc⟩
    · exact Or.inl hc
    · exact Or.inr (Or.inl hc)
    · refine Or.inr (Or.inr ?_)
      by_cases hfd : e.fd = fd
      · have hsame : k₀ = k := by
          have hsocket := hc.socket
          rw [hfd, hk] at hsocket
          exact (Option.some.inj hsocket).symm
        subst hsame
        exact ⟨entry, k', hc.table, by simp [setSocket, hfd], hc.client, hc.input,
          fun hout => Nat.lt_of_lt_of_le (hc.output hout) hchange.room,
          fun hup => hchange.hup (hc.hangup hup)⟩
      · exact ⟨entry, k₀, hc.same rfl (by simp [setSocket, hfd])⟩
  · have hback : ∀ fd' k₁, (Function.update s.sockets fd (some k')) fd' = some k₁ →
        ∃ k₀, s.sockets fd' = some k₀ ∧ k₀.client = k₁.client := by
      intro fd' k₁ hk₁
      rw [Function.update_apply] at hk₁
      split at hk₁
      · rename_i hfd
        cases hk₁
        exact ⟨k, hfd ▸ hk, hchange.client.symm⟩
      · exact ⟨k₁, hk₁, rfl⟩
    intro fd₁ fd₂ k₁ k₂ hk₁ hk₂ heq
    obtain ⟨k₁', hk₁', hc₁⟩ := hback fd₁ k₁ hk₁
    obtain ⟨k₂', hk₂', hc₂⟩ := hback fd₂ k₂ hk₂
    exact hs.distinct fd₁ fd₂ k₁' k₂' hk₁' hk₂' (hc₁.trans (heq.trans hc₂.symm))

theorem sound_move {a : EpollAction σ} (hm : EpollMove h s a s') (hs : s.Sound h) :
    s'.Sound h := by
  have hkeep : ∀ c < s.clients, c ∈ s.backlog → c ∈ s.backlog := fun _ _ hc => hc
  cases hm with
  | checked hpoint =>
    have hnil : s.batch = [] := by simp [EpollServer.batch, hpoint]
    refine hs.tables rfl rfl rfl rfl rfl ?_ ?_ (Nat.le_refl _) hkeep hs.newcomers hs.stopping ?_
    · cases hstop : s.stop <;> simp [EpollServer.batch]
    · simp [hnil]
    · intro hw
      simp [hs.stopping hw]
  | waited hpoint hnodup hpending => exact sound_waited hs hpoint hnodup hpending
  | left hpoint hnext =>
    have hnil : s.batch = [] := by rcases hpoint with hp | hp <;> simp [EpollServer.batch, hp]
    refine hs.tables rfl rfl rfl rfl rfl ?_ ?_ (Nat.le_refl _) hkeep hs.newcomers hs.stopping ?_
    · rcases hnext with rfl | ⟨_, rfl⟩ <;> simp [EpollServer.batch]
    · simp [hnil]
    · rcases hnext with rfl | ⟨_, rfl⟩ <;> simp
  | drained hpoint hfd => exact hs.popped hpoint (Or.inl hfd)
  | accepted hbacklog hfree hlisten _ hwake hclient harrived hsent _ =>
    exact sound_accepted hs hbacklog hfree hlisten hwake hclient harrived hsent
  | refused hbacklog =>
    obtain ⟨hnodup, hlt⟩ := hs.newcomers
    rw [hbacklog] at hnodup hlt
    refine hs.tables rfl rfl rfl rfl rfl (List.Sublist.refl _) (fun e he => Or.inl he)
      (Nat.le_refl _) ?_ ⟨(List.nodup_cons.mp hnodup).2, ?_⟩ hs.stopping hs.waking
    · intro c _ hc
      rw [hbacklog]
      exact List.mem_cons_of_mem _ hc
    · intro c hc
      exact hlt c (List.mem_cons_of_mem _ hc)
  | acceptEnded hpoint hfd => exact hs.popped hpoint (Or.inr (Or.inl hfd))
  | stale hpoint _ _ hnone => exact hs.popped hpoint (Or.inr (Or.inr hnone))
  | handled hpoint _ _ hentry hk hr hres hpossible =>
    exact sound_handled hs hpoint hentry hk hr hres hpossible
  | connected =>
    obtain ⟨hnodup, hlt⟩ := hs.newcomers
    refine hs.tables rfl rfl rfl rfl rfl (List.Sublist.refl _) (fun e he => Or.inl he)
      (Nat.le_succ _) ?_ ⟨?_, ?_⟩ hs.stopping hs.waking
    · intro c hc hmem
      rcases List.mem_append.mp hmem with hmem | hmem
      · exact hmem
      · exact absurd (List.mem_singleton.mp hmem) (Nat.ne_of_lt hc)
    · refine List.nodup_append.mpr ⟨hnodup, by simp, ?_⟩
      intro c hc d hd hcd
      rw [List.mem_singleton.mp hd] at hcd
      exact absurd hcd (Nat.ne_of_lt (hlt c hc))
    · intro c hc
      rcases List.mem_append.mp hc with hc | hc
      · exact Nat.lt_succ_of_lt (hlt c hc)
      · rw [List.mem_singleton.mp hc]
        exact Nat.lt_succ_self _
  | changed hk hchange _ => exact sound_changed hs hk hchange
  | stopped =>
    exact hs.tables rfl rfl rfl rfl rfl (List.Sublist.refl _) (fun e he => Or.inl he)
      (Nat.le_refl _) hkeep hs.newcomers (fun _ => rfl) hs.waking
  | woke hstop =>
    exact hs.tables rfl rfl rfl rfl rfl (List.Sublist.refl _) (fun e he => Or.inl he)
      (Nat.le_refl _) hkeep hs.newcomers (fun _ => hstop) (fun _ _ => rfl)
  | elsewhere =>
    exact hs.tables rfl rfl rfl rfl rfl (List.Sublist.refl _) (fun e he => Or.inl he)
      (Nat.le_refl _) hkeep hs.newcomers hs.stopping hs.waking

theorem sound_run {world : σ} (hr : Run (step h) (start world) anyStep s) : s.Sound h := by
  induction hr with
  | init => exact sound_start world
  | step _ _ hstep ih => exact sound_move (epoll_move hstep) ih

end EpollServer

/-! ## The tables -/

/-- **The tables agree.**  In every run the descriptors of `connections_`, of the open sockets and of
the registrations are the same; each connection has the client that its socket has, which no other
connection has, and is registered for what `WantedEvents` says; and an event that is still to be
handled is about a connection that is there, the one it was reported for, although descriptors are
closed and used again while a batch is worked off. -/
theorem epoll_tables_agree {h : RequestHandler σ} {world : σ} {s : EpollServer σ}
    (hr : Run (step h) (start world) anyStep s) :
    (∀ fd, (s.connections fd).isSome = (s.sockets fd).isSome ∧
      (s.registrations fd).isSome = (s.sockets fd).isSome) ∧
    (∀ fd e k r, s.connections fd = some e → s.sockets fd = some k → s.registrations fd = some r →
      e.client = k.client ∧ e.conn.closed = false ∧ r.input = e.conn.wantsInput ∧
        r.output = e.conn.wantsOutput) ∧
    (∀ fd fd' k k', s.sockets fd = some k → s.sockets fd' = some k' → k.client = k'.client →
      fd = fd') ∧
    (s.batch.map Report.fd).Nodup ∧
    ∀ e ∈ s.batch, e.fd = s.wakeFd ∨ e.fd = s.listenFd ∨
      ∃ entry, s.connections e.fd = some entry ∧ e.client = some entry.client := by
  have hs := sound_run hr
  refine ⟨fun fd => ?_, fun fd e k r he hk hr => ?_, hs.distinct, hs.once, fun e he => ?_⟩
  · cases hs.fds fd with
    | free he hk hr => simp [he, hk, hr]
    | used he hk hr _ _ _ _ _ => simp [he, hk, hr]
  · cases hs.fds fd with
    | free he₀ _ _ =>
      rw [he₀] at he
      cases he
    | used he₀ hk₀ hr₀ hlive _ _ _ _ =>
      rw [he] at he₀
      rw [hk] at hk₀
      rw [hr] at hr₀
      cases he₀
      cases hk₀
      cases hr₀
      exact ⟨hlive.client, hlive.isOpen, hlive.input, hlive.output⟩
  · rcases hs.current e he with hc | hc | ⟨entry, k, hc⟩
    · exact Or.inl hc
    · exact Or.inr (Or.inl hc)
    · exact Or.inr (Or.inr ⟨entry, hc.table, hc.client⟩)

/-- Two clients are accepted; the first hangs up, and while its event is handled a third client is
accepted under its descriptor. -/
theorem epoll_tables_agree_reused :
    ∃ s : EpollServer Nat, Run (step countingHandler) (start 0) anyStep s ∧
      decide (s.batch.map Report.fd = [8]) = true ∧
      ((s.connections 7).map Entry.client = some 2) ∧
      ∀ e ∈ s.batch, e.fd = s.wakeFd ∨ e.fd = s.listenFd ∨
        ∃ entry, s.connections e.fd = some entry ∧ e.client = some entry.client := by
  obtain ⟨s, hr, hs⟩ : ∃ s : EpollServer Nat, Run (step countingHandler) (start 0) anyStep s ∧
      decide (s.batch.map Report.fd = [8] ∧ (s.connections 7).map Entry.client = some 2) = true :=
    exists_run
      [.connect, .connect, .check, .wait [3], .accept 7 { client := 0 } true,
        .accept 8 { client := 1 } true, .acceptEnds, .turn, .connect, .hangUp 7, .send 8 [1],
        .check, .wait [7, 3, 8], .handle [] false [], .accept 7 { client := 2 } true, .acceptEnds]
      (by decide +kernel)
  obtain ⟨hbatch, hclient⟩ := of_decide_eq_true hs
  exact ⟨s, hr, decide_eq_true hbatch, hclient, (epoll_tables_agree hr).2.2.2.2⟩

/-! ## No lost edge -/

/-- `Run` is in `epoll_wait`, which has nothing to report. -/
def EpollServer.Blocked (s : EpollServer σ) : Prop :=
  s.point = .waiting ∧ ∀ fd, s.pending fd = false

namespace EpollServer

variable {h : RequestHandler σ} {s : EpollServer σ}

/-- A server that is blocked has nothing to report about a connection. -/
theorem Sound.blocked (hs : s.Sound h) (hb : s.Blocked) {fd : Nat} {e : Entry} {k : Socket}
    (he : s.connections fd = some e) (hk : s.sockets fd = some k) :
    Exchanged h e.conn k ∧ k.hup = false ∧ k.fin = false ∧
      (e.conn.wantsInput = true → k.incoming = []) ∧ (e.conn.wantsOutput = true → k.room = 0) := by
  obtain ⟨hpoint, hpending⟩ := hb
  cases hs.fds fd with
  | free he₀ _ _ =>
    rw [he₀] at he
    cases he
  | @used _ _ r he₀ hk₀ hr hlive hlisten hwake _ _ =>
    rw [he] at he₀
    rw [hk] at hk₀
    cases he₀
    cases hk₀
    have hnothing : r.reports k = false := by
      by_contra hreports
      have hready := hlive.armed (by simp [EpollServer.batch, hpoint])
        (Bool.not_eq_false _ ▸ hreports)
      have hfd := hpending fd
      simp only [pending, if_neg hwake, if_neg hlisten, hr, hk, hready, Bool.true_and] at hfd
      exact hreports hfd
    simp only [Registration.reports, Bool.or_eq_false_iff, Bool.and_eq_false_iff,
      decide_eq_false_iff_not, not_not] at hnothing
    obtain ⟨⟨⟨hhup, hfin⟩, hinput⟩, houtput⟩ := hnothing
    refine ⟨hlive.exchanged, hhup, hfin, fun hin => ?_, fun hout => ?_⟩
    · exact hinput.resolve_left (by simp [hlive.input, hin])
    · have hroom := houtput.resolve_left (by simp [hlive.output, hout])
      omega

end EpollServer

/-- **No edge is lost.**  When `epoll_wait` would block, nobody waits to be accepted, no `Stop` is
unheard, and every connection has read what its client has sent, unless a mebibyte of output is
queued, and has sent what is queued, unless its client does not take it.  So a client that takes its
responses has got the handler's answer to every request that it has sent completely, in order. -/
theorem epoll_answers_everything {h : RequestHandler σ} {world : σ} {s : EpollServer σ}
    (hr : Run (step h) (start world) anyStep s) (hblocked : s.Blocked) :
    s.backlog = [] ∧ s.woken = false ∧
    ∀ fd e k, s.connections fd = some e → s.sockets fd = some k →
      k.hup = false ∧ k.fin = false ∧
      (k.incoming = [] ∨ kBackpressureThreshold ≤ e.conn.writeBuffer.length) ∧
      (e.conn.writeBuffer = [] ∨ k.room = 0) ∧
      (0 < k.room → ∃ xs : List Exchange, (∀ x ∈ xs, x.Valid h) ∧
        k.arrived = (xs.map Exchange.frame).flatten ++ e.conn.readBuffer ∧
        parseFrame e.conn.readBuffer = .more ∧ k.sent = (xs.map Exchange.response).flatten) := by
  have hs := sound_run hr
  obtain ⟨hpoint, hpending⟩ := id hblocked
  refine ⟨?_, ?_, fun fd e k he hk => ?_⟩
  · simpa [pending, hs.ownFds] using hpending s.listenFd
  · cases hw : s.woken with
    | false => rfl
    | true =>
      have hwake := hs.waking hw hpoint
      have hnone := hpending s.wakeFd
      simp only [pending, if_true, hwake] at hnone
      exact absurd hnone (by decide)
  · obtain ⟨hx, hhup, hfin, hinput, houtput⟩ := hs.blocked hblocked he hk
    have hread : k.incoming = [] ∨ kBackpressureThreshold ≤ e.conn.writeBuffer.length := by
      cases hin : e.conn.wantsInput with
      | true => exact Or.inl (hinput hin)
      | false => exact Or.inr (Nat.le_of_not_lt (of_decide_eq_false hin))
    have hsent : e.conn.writeBuffer = [] ∨ k.room = 0 := by
      cases hout : e.conn.wantsOutput with
      | true => exact Or.inr (houtput hout)
      | false =>
        left
        by_contra hne
        exact of_decide_eq_false hout hne
    refine ⟨hhup, hfin, hread, hsent, fun hroom => ?_⟩
    have hempty : e.conn.writeBuffer = [] := hsent.resolve_right (by omega)
    have hall : k.incoming = [] := by
      refine hread.resolve_right ?_
      rw [hempty]
      decide
    obtain ⟨xs, hvalid, harrived, hmore, hresponses⟩ := hx
    rw [hall, List.append_nil] at harrived
    rw [hempty, List.append_nil] at hresponses
    exact ⟨xs, hvalid, harrived, hmore, hresponses⟩

/-- Connections are accepted under this descriptor only. -/
def acceptsOnly (fd : Nat) (_ : EpollServer σ) : EpollAction σ → Prop
  | .accept fd' _ _ => fd' = fd
  | _ => True

instance (fd : Nat) (s : EpollServer σ) : (a : EpollAction σ) → Decidable (acceptsOnly fd s a)
  | .accept fd' _ _ => inferInstanceAs (Decidable (fd' = fd))
  | .check => instDecidableTrue
  | .wait _ => instDecidableTrue
  | .waitInterrupted => instDecidableTrue
  | .waitFails _ => instDecidableTrue
  | .turn => instDecidableTrue
  | .drainWake => instDecidableTrue
  | .acceptEnds => instDecidableTrue
  | .handle _ _ _ => instDecidableTrue
  | .connect => instDecidableTrue
  | .send _ _ => instDecidableTrue
  | .closeSending _ => instDecidableTrue
  | .hangUp _ => instDecidableTrue
  | .take _ _ => instDecidableTrue
  | .callStop => instDecidableTrue
  | .stopWakes => instDecidableTrue
  | .elsewhere _ => instDecidableTrue

/-- Then nothing is registered under another one. -/
theorem unregistered_run {h : RequestHandler σ} {world : σ} {s : EpollServer σ} {fd fd' : Nat}
    (hr : Run (step h) (start world) (acceptsOnly fd) s) (hne : fd' ≠ fd) :
    s.registrations fd' = none := by
  induction hr with
  | init => rfl
  | step _ ha hstep ih =>
    cases epoll_move hstep with
    | waited => simp [unready, ih]
    | accepted _ _ _ _ _ _ _ _ haction =>
      subst haction
      have hfd := ha
      simp only [acceptsOnly] at hfd
      simpa [setFd, hfd, hne] using ih
    | @handled e _ _ _ r _ _ _ _ _ _ _ _ _ _ _ hr _ _ =>
      have hfd : fd' ≠ e.fd := by
        rintro rfl
        rw [ih] at hr
        cases hr
      simpa [setFd, hfd] using ih
    | @changed fd₀ =>
      by_cases hfd : fd' = fd₀
      · subst hfd
        simp [setSocket, ih]
      · simpa [setSocket, hfd] using ih
    | _ => exact ih

/-- One client has sent a request and the beginning of another one, and has its response. -/
theorem epoll_answers_request :
    ∃ s : EpollServer Nat, Run (step countingHandler) (start 0) anyStep s ∧ s.Blocked ∧
      ∀ e k, s.connections 7 = some e → s.sockets 7 = some k →
        k.arrived = getFrame ++ [1, 2] ∧ ∃ xs : List Exchange, (∀ x ∈ xs, x.Valid countingHandler) ∧
          k.arrived = (xs.map Exchange.frame).flatten ++ e.conn.readBuffer ∧
          k.sent = (xs.map Exchange.response).flatten := by
  obtain ⟨s, hr, hs⟩ : ∃ s : EpollServer Nat,
      Run (step countingHandler) (start 0) (acceptsOnly 7) s ∧
      decide (s.point = .waiting ∧ s.backlog = [] ∧ s.wake = false ∧ s.pending 7 = false ∧
        (s.sockets 7).all (fun k => decide (0 < k.room ∧ k.arrived = getFrame ++ [1, 2])) = true) =
          true :=
    exists_run
      [.connect, .check, .wait [3], .accept 7 { client := 0, room := 100 } true, .acceptEnds, .turn,
        .send 7 (getFrame ++ [1, 2]), .check, .wait [7],
        .handle [.data (getFrame ++ [1, 2])] false [], .turn, .check, .wait [7],
        .handle [] false [.accepted 26], .turn, .check] (by decide +kernel)
  obtain ⟨hpoint, hbacklog, hwake, hseven, hsocket⟩ := of_decide_eq_true hs
  have hrun : Run (step countingHandler) (start 0) anyStep s := hr.mono fun _ _ _ => trivial
  have hblocked : s.Blocked := by
    refine ⟨hpoint, fun fd => ?_⟩
    by_cases hfd : fd = 7
    · rw [hfd]
      exact hseven
    · simp [pending, hwake, hbacklog, unregistered_run hr hfd]
  refine ⟨s, hrun, hblocked, fun e k he hk => ?_⟩
  rw [hk] at hsocket
  obtain ⟨hroom, harrived⟩ := of_decide_eq_true hsocket
  obtain ⟨xs, hvalid, hframes, _, hresponses⟩ :=
    ((epoll_answers_everything hrun hblocked).2.2 7 e k he hk).2.2.2.2 hroom
  exact ⟨harrived, xs, hvalid, hframes, hresponses⟩

/-! ## A paused connection whose client has finished -/

section Spinning

variable {h : RequestHandler σ} {s s' : EpollServer σ} {fd : Nat} {entry : Entry} {k : Socket}

/-- An event without a flag that `HandleEvent` looks at changes nothing. -/
theorem handleEvent_nothing {ev : ReadyEvent} {world : σ} {conn : Connection}
    (hhangup : ev.hangup = false) (hinput : ev.input = false) (houtput : ev.output = false)
    (hopen : conn.closed = false) : handleEvent h ev world conn = (world, some conn, []) := by
  simp [handleEvent, hhangup, hinput, houtput, hopen]

/-- Reads are paused, the client has closed its sending side and takes nothing. -/
structure Spinning (s : EpollServer σ) (fd : Nat) (entry : Entry) (k : Socket) : Prop where
  table : s.connections fd = some entry
  socket : s.sockets fd = some k
  fin : k.fin = true
  hup : k.hup = false
  room : k.room = 0
  paused : kBackpressureThreshold ≤ entry.conn.writeBuffer.length

theorem Spinning.handled (hspin : Spinning s fd entry k) (hs : s.Sound h) {e : Report}
    (he : e ∈ s.batch) (hfd : e.fd = fd) (hwake : e.fd ≠ s.wakeFd) (hlisten : e.fd ≠ s.listenFd) :
    e.hangup = false ∧ e.input = false ∧ e.output = false := by
  have hc : Current s e entry k := by
    rcases hs.current e he with h' | h' | ⟨entry', k', hc⟩
    · exact absurd h' hwake
    · exact absurd h' hlisten
    · have htable := hc.table
      have hsocket := hc.socket
      rw [hfd, hspin.table] at htable
      rw [hfd, hspin.socket] at hsocket
      cases htable
      cases hsocket
      exact hc
  refine ⟨?_, ?_, ?_⟩
  · by_contra hflag
    exact absurd ((hc.hangup (Bool.not_eq_false _ ▸ hflag)).symm.trans hspin.hup) (by decide)
  · by_contra hflag
    have hlt := of_decide_eq_true (hc.input (Bool.not_eq_false _ ▸ hflag))
    exact absurd hspin.paused (Nat.not_le.mpr hlt)
  · by_contra hflag
    have hpos := hc.output (Bool.not_eq_false _ ▸ hflag)
    rw [hspin.room] at hpos
    exact absurd hpos (Nat.lt_irrefl 0)

theorem Spinning.move (hspin : Spinning s fd entry k) (hs : s.Sound h) {a : EpollAction σ}
    (ha : a.target ≠ some fd) (hm : EpollMove h s a s') : Spinning s' fd entry k := by
  cases hm with
  | @accepted fd' _ _ _ _ hfree _ _ _ _ _ _ _ =>
    have hne : fd ≠ fd' := by
      rintro rfl
      rw [hspin.socket] at hfree
      cases hfree
    exact { hspin with
      table := by simpa [setFd, hne] using hspin.table
      socket := by simpa [setFd, hne] using hspin.socket }
  | @handled e batch entry₀ k₀ r reads readFails writes conn out world hpoint hwake hlisten hentry hk
      hr hres hpossible =>
    by_cases hfd : e.fd = fd
    · have hmem : e ∈ s.batch := by
        rw [batch_handling hpoint]
        exact List.mem_cons_self
      obtain ⟨hhangup, hinput, houtput⟩ := hspin.handled hs hmem hfd hwake hlisten
      rw [hfd, hspin.table] at hentry
      rw [hfd, hspin.socket] at hk
      cases hentry
      cases hk
      have hopen : entry.conn.closed = false := by
        cases hs.fds fd with
        | free hnone _ _ =>
          rw [hspin.table] at hnone
          cases hnone
        | used he₀ _ _ hlive _ _ _ _ =>
          rw [hspin.table] at he₀
          cases he₀
          exact hlive.isOpen
      have hnothing : handleEvent h (eventOf e k reads readFails writes) s.world entry.conn =
          (s.world, some entry.conn, []) := handleEvent_nothing hhangup hinput houtput hopen
      rw [hnothing] at hres
      cases hres
      have hsame : k.handled e.input [] = k := by
        simp [Socket.handled, hinput]
      exact { hspin with
        table := by simp [setFd, hfd]
        socket := by simp [setFd, hfd, hsame] }
    · have hne : fd ≠ e.fd := Ne.symm hfd
      exact { hspin with
        table := by simpa [setFd, hne] using hspin.table
        socket := by simpa [setFd, hne] using hspin.socket }
  | @changed fd' _ _ _ _ _ htarget =>
    have hne : fd ≠ fd' := by
      rintro rfl
      exact ha htarget
    exact { hspin with
      table := hspin.table
      socket := by simpa [setSocket, hne] using hspin.socket }
  | _ => exact { hspin with table := hspin.table, socket := hspin.socket }

/-- Its end of file is reported again each time its event has been handled. -/
theorem Spinning.not_blocked (hspin : Spinning s fd entry k) (hs : s.Sound h) : ¬ s.Blocked := by
  intro hblocked
  have hfin := (hs.blocked hblocked hspin.table hspin.socket).2.2.1
  exact absurd (hspin.fin.symm.trans hfin) (by decide)

end Spinning

/-- **A client that has closed its sending side while its reads are paused keeps the loop busy**:
`EPOLLRDHUP` is asked for but not handled, and every `EPOLL_CTL_MOD` has it reported again.  As long
as the client takes nothing, the connection stays as it is and `epoll_wait` never blocks, whatever
else happens. -/
theorem paused_half_close_spins {h : RequestHandler σ} {world : σ} {s s' : EpollServer σ}
    (hr : Run (step h) (start world) anyStep s) {fd : Nat} {entry : Entry} {k : Socket}
    (hspin : Spinning s fd entry k)
    (hrun : Run (step h) s (fun _ a => a.target ≠ some fd) s') :
    s'.connections fd = some entry ∧ s'.sockets fd = some k ∧ ¬ s'.Blocked := by
  have hboth : s'.Sound h ∧ Spinning s' fd entry k := by
    induction hrun with
    | init => exact ⟨sound_run hr, hspin⟩
    | step _ ha hstep ih =>
      have hm := epoll_move hstep
      exact ⟨sound_move hm ih.1, ih.2.move ih.1 ha hm⟩
  exact ⟨hboth.2.table, hboth.2.socket, hboth.2.not_blocked hboth.1⟩

/-! ### A client that does so -/

/-- `HandleEvent` on a readable event whose frames are all answered. -/
theorem step_handle_readable {h : RequestHandler σ} {s : EpollServer σ} {e : Report}
    {entry : Entry} {k : Socket} {r : Registration} {world : σ} {events : List SessionEvent}
    {rest : Bytes} (hpoint : s.point = .handling [e]) (hwake : e.fd ≠ s.wakeFd)
    (hlisten : e.fd ≠ s.listenFd) (hentry : s.connections e.fd = some entry)
    (hk : s.sockets e.fd = some k) (hr : s.registrations e.fd = some r) (hhangup : e.hangup = false)
    (hinput : e.input = true) (houtput : e.output = false) (hfin : k.fin = false)
    (hopen : entry.conn.closed = false) (hbytes : k.incoming ≠ [])
    (hloop : frameLoop h accepting s.world (entry.conn.readBuffer ++ k.incoming) =
      ⟨world, events, some rest⟩) :
    s.step h (.handle [.data k.incoming] false []) =
      some
        ({ s with world := world, point := .handling [] }.setFd e.fd
          (some { entry with conn := ⟨rest, entry.conn.writeBuffer ++ written events, false⟩ })
          (some (k.handled true []))
          (some (registerFor ⟨rest, entry.conn.writeBuffer ++ written events, false⟩ r.ready
            (k.handled true [])))) := by
  have hevent : handleEvent h (eventOf e k [.data k.incoming] false []) s.world entry.conn =
      (world, some ⟨rest, entry.conn.writeBuffer ++ written events, false⟩, []) := by
    simp [handleEvent, eventOf, hhangup, hinput, houtput, hfin, Connection.onReadable,
      Connection.processFrames, hloop, hopen]
  have hpossible : Possible e k [.data k.incoming] false []
      (some ⟨rest, entry.conn.writeBuffer ++ written events, false⟩) [] := by
    refine ⟨by simpa [ReadResult.Continues] using hbytes, fun _ => by simp [received], by simp,
      by simp, by simp [houtput]⟩
  simp only [step, hpoint, hwake, hlisten, ne_eq, not_false_eq_true, and_self, if_true,
    EpollServer.handle, hentry, hk, hr, hevent, if_pos hpossible, Option.map_some]
  rw [hinput]
  rfl

/-- A handler that answers every request with the same value. -/
def valueHandler (value : Bytes) : RequestHandler Unit where
  handle s req := (s, { requestId := req.requestId, status := .kOk, value := value })
  handleCluster s req := (s, { requestId := req.requestId, status := .kBadRequest })

theorem frameLoop_large {value : Bytes} (hlength : value.length = kBackpressureThreshold) :
    ∃ events, frameLoop (valueHandler value) accepting () getFrame = ⟨(), events, some []⟩ ∧
      kBackpressureThreshold ≤ (written events).length := by
  have hparse : ∃ req, tryParseFrame getFrame = (.kComplete (.clientRequest req), []) :=
    ⟨{ requestId := 7, opcode := .kGet, key := [97] }, by decide +kernel⟩
  obtain ⟨req, hparse⟩ := hparse
  obtain ⟨reply, hreply, hlong⟩ : ∃ reply,
      Protocol.encodeClientResponse ((valueHandler value).handle () req).2 = .ok reply ∧
        kBackpressureThreshold ≤ reply.length := by
    refine ⟨_, Protocol.encodeFrame_ok.mpr ⟨?_, rfl⟩, ?_⟩
    · show 8 + 2 + 4 + value.length + 4 ≤ Protocol.kMaxPayloadSize
      rw [hlength]
      decide
    · rw [List.length_append, Protocol.ClientResponse.payload_length]
      show _ ≤ _ + (8 + 2 + 4 + value.length + 4)
      omega
  have hreact : frameReaction (valueHandler value) accepting () (.clientRequest req) =
      ⟨(), [.handled (.clientRequest req), .wrote reply], true⟩ := by
    simp only [frameReaction, RequestHandler.answer, hreply, accepting]
  refine ⟨[.handled (.clientRequest req), .wrote reply], ?_, ?_⟩
  · unfold frameLoop
    rw [drainAll_done parseFrame_stable (parseFrame_done.mpr hparse), hreact, if_pos rfl,
      drainAll_more rfl]
    rfl
  · simpa [written] using hlong

/-- The events of a round have been handled, and a second client is connected that has sent
nothing. -/
structure SecondQuiet (s : EpollServer Unit) : Prop where
  point : s.point = .handling []
  running : s.stop = false
  wakeFd : s.wakeFd = 5
  listenFd : s.listenFd = 3
  table : s.connections 8 = some { client := 1, conn := {} }
  socket : s.sockets 8 = some { client := 1 }
  registration : s.registrations 8 = some ⟨true, false, false⟩

/-- One request whose answer is not taken, and the end of the client's stream. -/
theorem spinning_reachable {value : Bytes} (hlength : value.length = kBackpressureThreshold) :
    ∃ (s : EpollServer Unit) (entry : Entry) (k : Socket),
      Run (step (valueHandler value)) (start ()) anyStep s ∧ Spinning s 7 entry k ∧
        SecondQuiet s := by
  obtain ⟨s, hr, hs⟩ : ∃ s : EpollServer Unit, Run (step (valueHandler value)) (start ()) anyStep s ∧
      decide (s.point = .handling [{ fd := 7, input := true, client := some 0 }] ∧
        s.wakeFd = 5 ∧ s.listenFd = 3 ∧ s.connections 7 = some { client := 0, conn := {} } ∧
        s.sockets 7 = some { client := 0, incoming := getFrame, arrived := getFrame } ∧
        (s.registrations 7).isSome = true ∧ s.stop = false ∧
        s.connections 8 = some { client := 1, conn := {} } ∧ s.sockets 8 = some { client := 1 } ∧
        s.registrations 8 = some ⟨true, false, false⟩) = true :=
    exists_run
      [.connect, .connect, .check, .wait [3],
        .accept 7 { client := 0, incoming := getFrame, arrived := getFrame } true,
        .accept 8 { client := 1 } true, .acceptEnds, .turn, .check, .wait [7]] rfl
  obtain ⟨hpoint, hwake, hlisten, hentry, hk, hreg, hstop, htable, hsocket, hquiet⟩ :=
    of_decide_eq_true hs
  obtain ⟨r, hreg⟩ := Option.isSome_iff_exists.mp hreg
  obtain ⟨events, hloop, hlong⟩ := frameLoop_large hlength
  have hstep := step_handle_readable (h := valueHandler value) hpoint (by simp [hwake]) (by simp [hlisten])
    hentry hk hreg rfl rfl rfl rfl rfl (by decide) hloop
  have hr₁ := hr.step trivial hstep
  have hfinish : ∀ t : EpollServer Unit, ∀ k : Socket, t.sockets 7 = some k →
      t.step (valueHandler value) (.closeSending 7) =
        some (t.setSocket 7 (fun _ => true) { k with fin := true }) := by
    intro t k ht
    simp only [step, clientStep, ht, Option.map_some]
  have hr₂ := hr₁.step trivial (hfinish _
    (Socket.handled { client := 0, incoming := getFrame, arrived := getFrame } true [])
    (by simp [setFd]))
  refine ⟨_, { client := 0, conn := ⟨[], [] ++ written events, false⟩ },
    { (Socket.handled { client := 0, incoming := getFrame, arrived := getFrame } true []) with
      fin := true }, hr₂, ?_, ?_⟩
  · exact ⟨by simp [setFd, setSocket], by simp [setFd, setSocket], rfl, rfl, rfl,
      by simpa using hlong⟩
  · exact ⟨rfl, hstop, hwake, hlisten, htable, hsocket, hquiet⟩

theorem run_to_wait {h : RequestHandler σ} {s : EpollServer σ} {fd : Nat}
    (hpoint : s.point = .handling []) (hrunning : s.stop = false) :
    Run (step h) s (fun _ a => a.target ≠ some fd) { s with point := .waiting } := by
  have hturn : s.step h .turn = some { s with point := .top } := by simp only [step, hpoint]
  have hcheck : ({ s with point := .top } : EpollServer σ).step h .check =
      some { s with point := .waiting } := by
    simp [step, hrunning]
  have hrun : Run (step h) s (fun _ a => a.target ≠ some fd) { s with point := .top } :=
    .step .init (by simp [EpollAction.target]) hturn
  exact hrun.step (by simp [EpollAction.target]) hcheck

/-- A request of the second client is read and answered, and the loop is back at `epoll_wait`. -/
theorem SecondQuiet.served {s : EpollServer Unit} (hs : SecondQuiet s) {value : Bytes}
    (hlength : value.length = kBackpressureThreshold) :
    ∃ (s' : EpollServer Unit) (entry : Entry),
      Run (step (valueHandler value)) s (fun _ a => a.target ≠ some 7) s' ∧
        s'.point = .waiting ∧ s'.connections 8 = some entry ∧
        kBackpressureThreshold ≤ entry.conn.writeBuffer.length := by
  obtain ⟨events, hloop, hlong⟩ := frameLoop_large hlength
  let k : Socket := { client := 1, incoming := getFrame, arrived := getFrame }
  -- the request arrives, and `epoll_wait` reports it
  have hsend : s.step (valueHandler value) (.send 8 getFrame) =
      some (s.setSocket 8 (fun r => r.input) k) := by
    simp [step, clientStep, hs.socket, k]
  let s₁ : EpollServer Unit := { s.setSocket 8 (fun r => r.input) k with point := .waiting }
  have hrun₁ : Run (step (valueHandler value)) s (fun _ a => a.target ≠ some 7) s₁ :=
    (Run.init.step (by simp [EpollAction.target]) hsend).trans (run_to_wait hs.point hs.running)
  have hregistration : s₁.registrations 8 = some ⟨true, false, true⟩ := by
    simp [s₁, setSocket, hs.registration]
  have hsocket : s₁.sockets 8 = some k := by simp [s₁, setSocket]
  have hwait : s₁.step (valueHandler value) (.wait [8]) =
      some { s₁ with
        point := .handling [{ fd := 8, input := true, client := some 1 }]
        registrations := unready s₁.registrations [8] } := by
    have hpending : s₁.pending 8 = true := by
      unfold pending
      rw [hregistration, hsocket, if_neg (by simp [s₁, setSocket, hs.wakeFd]),
        if_neg (by simp [s₁, setSocket, hs.listenFd])]
      rfl
    have hreport : s₁.report 8 = { fd := 8, input := true, client := some 1 } := by
      unfold report
      rw [hregistration, hsocket]
      rfl
    have hpoint : s₁.point = .waiting := rfl
    simp [step, hpoint, hpending, hreport, kMaxEvents]
  have hhandle := step_handle_readable (h := valueHandler value)
    (s := { s₁ with
      point := .handling [{ fd := 8, input := true, client := some 1 }]
      registrations := unready s₁.registrations [8] })
    (e := { fd := 8, input := true, client := some 1 })
    rfl (by simp [s₁, setSocket, hs.wakeFd]) (by simp [s₁, setSocket, hs.listenFd]) hs.table hsocket
    (by simp [unready, hregistration]; rfl) rfl rfl rfl rfl rfl (by decide) hloop
  have hrun₂ := hrun₁.step (by simp [EpollAction.target]) hwait
  have hrun₃ := hrun₂.step (by simp [EpollAction.target]) hhandle
  exact ⟨_, _, hrun₃.trans (run_to_wait rfl hs.running), rfl, by simp [setFd]; rfl,
    by simpa using hlong⟩

/-- A mebibyte is such an answer.  The loop finds the end of the first client's stream again after a
second client has been served. -/
theorem paused_half_close_spins_mebibyte :
    ∃ (value : Bytes) (s s' : EpollServer Unit) (entry other : Entry) (k : Socket),
      Run (step (valueHandler value)) (start ()) anyStep s ∧ Spinning s 7 entry k ∧
        s.connections 8 = some { client := 1, conn := {} } ∧
        Run (step (valueHandler value)) s (fun _ a => a.target ≠ some 7) s' ∧
        s'.connections 8 = some other ∧
        kBackpressureThreshold ≤ other.conn.writeBuffer.length ∧ s'.point = .waiting ∧
        s'.connections 7 = some entry ∧ s'.sockets 7 = some k ∧ ¬ s'.Blocked := by
  have hlength : (List.replicate kBackpressureThreshold (0 : UInt8)).length =
      kBackpressureThreshold := List.length_replicate
  obtain ⟨s, entry, k, hr, hspin, hquiet⟩ := spinning_reachable hlength
  obtain ⟨s', other, hrun, hpoint, hother, hlong⟩ := hquiet.served hlength
  exact ⟨_, s, s', entry, other, k, hr, hspin, hquiet.table, hrun, hother, hlong, hpoint,
    paused_half_close_spins hr hspin hrun⟩

end NeuralKV
