import Mathlib.Algebra.Order.Group.Multiset
import Mathlib.Tactic.Abel
import NeuralKV.Concurrency.ThreadPool
import NeuralKV.Storage.ShardedKV

/-!
# The accept loops and their shutdown

Model of `src/server/blocking_server.cpp` and `src/server/thread_pool_server.cpp`.  `Run` and `Stop`
are called by different threads (or `Stop` by a signal handler) and share `stop_` and `listen_fd_`.
Closing the listening socket does not wake a thread that is blocked in `accept`, so `Stop` connects
to its own listener first.

* `AcceptLoop.step` — the two servers up to what they do with a connection: `Run` point by point,
  any number of calls of `Stop`, and the connections that wait to be accepted.
* `AcceptMove`, `accept_move` — what a step can do.
* `stop_ends_run` — **once `Stop` has connected, or the listener is gone, `Run` returns `Ok` after at
  most three steps of its own**, whatever the order; no failure of `accept` that `Stop` brings about
  is reported.
* `ThreadPoolServer` — the loop together with the pool that it hands its connections to.
* `pool_server_closes_each_once` — **every connection that `accept` returned is closed once**, and
  all but the last of them are served before that.
-/

set_option autoImplicit false

namespace NeuralKV

open Runs (Run anyStep exec exists_of_any exists_run countP_le_of_exec)

variable {κ : Type}

/-- What `Run` does with a connection: serve it, or submit it to a pool. -/
inductive Dispatch where
  | serve
  | submit
  deriving DecidableEq, Repr

/-- Where `Run` is. -/
inductive RunPoint (κ : Type) where
  /-- At the head of the loop. -/
  | top
  /-- About to call `accept` on `listen_fd_.get()`. -/
  | calling
  /-- Blocked in `accept`. -/
  | accepting
  /-- `accept` has failed with another error than `EINTR`. -/
  | failed (reason : String)
  /-- `accept` has returned a connection. -/
  | accepted (client : κ)
  /-- In `ServeConnection`. -/
  | serving (client : κ)
  | returned (status : Status)
  deriving DecidableEq, Repr

/-- Where a call of `Stop` is, with `stop_` set. -/
inductive StopPoint where
  | connecting
  | closing
  deriving DecidableEq, Repr

structure AcceptLoop (κ : Type) where
  point : RunPoint κ
  stop : Bool := false
  /-- `listen_fd_` is open. -/
  listening : Bool := true
  /-- Connections that wait to be accepted. -/
  backlog : List κ := []
  stops : List StopPoint := []
  /-- History: a call of `Stop` has connected. -/
  woken : Bool := false
  /-- History: the connections that `accept` returned, that were served or submitted, and that were
  closed without. -/
  taken : List κ := []
  handed : List κ := []
  discarded : List κ := []
  deriving DecidableEq, Repr

inductive AcceptAction (κ : Type) where
  /-- The next step of `Run`, where it needs nothing from outside. -/
  | run
  | acceptReturns
  | acceptInterrupted
  | acceptFails (reason : String)
  /-- The session of `ServeConnection` ends and its connection is closed. -/
  | sessionEnds
  | connect (client : κ)
  | callStop
  /-- `TcpConnect` in call `k` of `Stop`: the connection, or a failure. -/
  | stopConnects (k : Nat) (wake : Option κ)
  /-- `listen_fd_.reset()` in call `k` of `Stop`. -/
  | stopCloses (k : Nat)
  deriving DecidableEq, Repr

namespace AcceptLoop

/-- After the constructor, at the start of `Run`. -/
def start (bindStatus : Status) : AcceptLoop κ :=
  if bindStatus.ok then { point := .top } else { point := .returned bindStatus, listening := false }

/-- The listening socket exists: `listen_fd_` is open, or a call of `accept` holds on to it. -/
def reachable (s : AcceptLoop κ) : Bool :=
  s.listening ||
    match s.point with
    | .accepting => true
    | _ => false

/-- The steps of `BlockingServer::Run` and `ThreadPoolServer::Run` outside `accept`. -/
def runStep (d : Dispatch) (s : AcceptLoop κ) : Option (AcceptLoop κ) :=
  match s.point with
  | .top => some { s with point := if s.stop then .returned Status.Ok else .calling }
  | .calling =>
    some { s with point := if s.listening then .accepting else .failed "Bad file descriptor" }
  | .failed reason =>
    some
      { s with
        point := .returned (if s.stop then Status.Ok else ⟨.kIOError, "accept: " ++ reason⟩) }
  | .accepted client =>
    if s.stop then
      -- "the wake-up connection from Stop(), not a real client"
      some { s with point := .returned Status.Ok, discarded := s.discarded ++ [client] }
    else
      some
        { s with
          point := match d with
            | .serve => .serving client
            | .submit => .top
          handed := s.handed ++ [client] }
  | _ => none

def step (d : Dispatch) (s : AcceptLoop κ) : AcceptAction κ → Option (AcceptLoop κ)
  | .run => s.runStep d
  | .acceptReturns =>
    match s.point, s.backlog with
    | .accepting, client :: backlog =>
      some { s with point := .accepted client, backlog := backlog, taken := s.taken ++ [client] }
    | _, _ => none
  | .acceptInterrupted =>
    match s.point with
    | .accepting => some { s with point := .top }
    | _ => none
  | .acceptFails reason =>
    match s.point with
    | .accepting => some { s with point := .failed reason }
    | _ => none
  | .sessionEnds =>
    match s.point with
    | .serving _ => some { s with point := .top }
    | _ => none
  | .connect client =>
    if s.reachable then some { s with backlog := s.backlog ++ [client] } else none
  | .callStop => some { s with stop := true, stops := s.stops ++ [.connecting] }
  | .stopConnects k none =>
    match s.stops[k]? with
    | some .connecting => some { s with stops := s.stops.set k .closing }
    | _ => none
  | .stopConnects k (some wake) =>
    match s.stops[k]? with
    | some .connecting =>
      if s.reachable then
        some
          { s with
            stops := s.stops.set k .closing
            backlog := s.backlog ++ [wake]
            woken := true }
      else none
    | _ => none
  | .stopCloses k =>
    match s.stops[k]? with
    | some .closing => some { s with stops := s.stops.eraseIdx k, listening := false }
    | _ => none

end AcceptLoop

/-- `BlockingServer`. -/
def BlockingServer.step (s : AcceptLoop κ) (a : AcceptAction κ) : Option (AcceptLoop κ) :=
  AcceptLoop.step .serve s a

/-! ## What a step can do -/

open AcceptLoop

/-- **What a step can do**: `Run` moves, a connection comes in, or a call of `Stop` moves. -/
inductive AcceptMove (d : Dispatch) (s : AcceptLoop κ) : AcceptAction κ → AcceptLoop κ → Prop where
  | checked (hpoint : s.point = .top) :
    AcceptMove d s .run { s with point := if s.stop then .returned Status.Ok else .calling }
  | called (hpoint : s.point = .calling) :
    AcceptMove d s .run
      { s with point := if s.listening then .accepting else .failed "Bad file descriptor" }
  | reported {reason : String} (hpoint : s.point = .failed reason) :
    AcceptMove d s .run
      { s with
        point := .returned (if s.stop then Status.Ok else ⟨.kIOError, "accept: " ++ reason⟩) }
  | discarded {client : κ} (hpoint : s.point = .accepted client) (hstop : s.stop = true) :
    AcceptMove d s .run
      { s with point := .returned Status.Ok, discarded := s.discarded ++ [client] }
  | handed {client : κ} (hpoint : s.point = .accepted client) (hstop : s.stop = false) :
    AcceptMove d s .run
      { s with
        point := match d with
          | .serve => .serving client
          | .submit => .top
        handed := s.handed ++ [client] }
  | accepted {client : κ} {backlog : List κ} (hpoint : s.point = .accepting)
      (hbacklog : s.backlog = client :: backlog) :
    AcceptMove d s .acceptReturns
      { s with point := .accepted client, backlog := backlog, taken := s.taken ++ [client] }
  | interrupted (hpoint : s.point = .accepting) :
    AcceptMove d s .acceptInterrupted { s with point := .top }
  | failed {reason : String} (hpoint : s.point = .accepting) :
    AcceptMove d s (.acceptFails reason) { s with point := .failed reason }
  | served {client : κ} (hpoint : s.point = .serving client) :
    AcceptMove d s .sessionEnds { s with point := .top }
  | connected {client : κ} (hreach : s.reachable = true) :
    AcceptMove d s (.connect client) { s with backlog := s.backlog ++ [client] }
  | stopped : AcceptMove d s .callStop { s with stop := true, stops := s.stops ++ [.connecting] }
  | unconnected {k : Nat} (hk : s.stops[k]? = some .connecting) :
    AcceptMove d s (.stopConnects k none) { s with stops := s.stops.set k .closing }
  | woke {k : Nat} {wake : κ} (hk : s.stops[k]? = some .connecting) (hreach : s.reachable = true) :
    AcceptMove d s (.stopConnects k (some wake))
      { s with stops := s.stops.set k .closing, backlog := s.backlog ++ [wake], woken := true }
  | closed {k : Nat} (hk : s.stops[k]? = some .closing) :
    AcceptMove d s (.stopCloses k) { s with stops := s.stops.eraseIdx k, listening := false }

theorem run_move {d : Dispatch} {s s' : AcceptLoop κ} (h : s.runStep d = some s') :
    AcceptMove d s .run s' := by
  unfold runStep at h
  split at h
  · rename_i hpoint
    cases h
    exact .checked hpoint
  · rename_i hpoint
    cases h
    exact .called hpoint
  · rename_i reason hpoint
    cases h
    exact .reported hpoint
  · rename_i client hpoint
    split at h
    · rename_i hstop
      cases h
      exact .discarded hpoint hstop
    · rename_i hstop
      cases h
      exact .handed hpoint (Bool.eq_false_iff.mpr hstop)
  · cases h

theorem accept_move {d : Dispatch} {s s' : AcceptLoop κ} {a : AcceptAction κ}
    (h : s.step d a = some s') : AcceptMove d s a s' := by
  cases a with
  | run => exact run_move h
  | acceptReturns =>
    simp only [step] at h
    split at h
    · rename_i client backlog hpoint hbacklog
      cases h
      exact .accepted hpoint hbacklog
    · cases h
  | acceptInterrupted =>
    simp only [step] at h
    split at h
    · rename_i hpoint
      cases h
      exact .interrupted hpoint
    · cases h
  | acceptFails reason =>
    simp only [step] at h
    split at h
    · rename_i hpoint
      cases h
      exact .failed hpoint
    · cases h
  | sessionEnds =>
    simp only [step] at h
    split at h
    · rename_i client hpoint
      cases h
      exact .served hpoint
    · cases h
  | connect client =>
    simp only [step] at h
    split at h
    · rename_i hreach
      cases h
      exact .connected hreach
    · cases h
  | callStop =>
    cases h
    exact .stopped
  | stopConnects k wake =>
    cases wake with
    | none =>
      simp only [step] at h
      split at h
      · rename_i hk
        cases h
        exact .unconnected hk
      · cases h
    | some wake =>
      simp only [step] at h
      split at h
      · rename_i hk
        split at h
        · rename_i hreach
          cases h
          exact .woke hk hreach
        · cases h
      · cases h
  | stopCloses k =>
    simp only [step] at h
    split at h
    · rename_i hk
      cases h
      exact .closed hk
    · cases h

/-! ## Shutdown -/

/-- `accept` fails for a reason of its own only after `Stop` was called. -/
def noFailure (s : AcceptLoop κ) (a : AcceptAction κ) : Prop :=
  match a with
  | .acceptFails _ => s.stop = true
  | _ => True

instance (s : AcceptLoop κ) : (a : AcceptAction κ) → Decidable (noFailure s a)
  | .acceptFails _ => inferInstanceAs (Decidable (s.stop = true))
  | .run => instDecidableTrue
  | .acceptReturns => instDecidableTrue
  | .acceptInterrupted => instDecidableTrue
  | .sessionEnds => instDecidableTrue
  | .connect _ => instDecidableTrue
  | .callStop => instDecidableTrue
  | .stopConnects _ _ => instDecidableTrue
  | .stopCloses _ => instDecidableTrue

/-- The steps of `Run`, those of `accept` and of a session that ends included. -/
def AcceptAction.ofRun : AcceptAction κ → Bool
  | .run => true
  | .acceptReturns => true
  | .acceptInterrupted => true
  | .acceptFails _ => true
  | .sessionEnds => true
  | _ => false

/-- How many steps `Run` has before it, once `stop_` is set. -/
def RunPoint.distance : RunPoint κ → Nat
  | .returned _ => 0
  | .top => 1
  | .failed _ => 1
  | .accepted _ => 1
  | .accepting => 2
  | .serving _ => 2
  | .calling => 3

theorem RunPoint.distance_le (point : RunPoint κ) : point.distance ≤ 3 := by
  cases point <;> simp [distance]

/-- What holds of `Run` where it is: a connection waits for every call of `accept` that began before
`stop_` was looked at, and only `Stop` makes `accept` fail. -/
def AcceptLoop.Ahead (s : AcceptLoop κ) : Prop :=
  match s.point with
  | .calling => s.woken = true → s.listening = true → s.backlog ≠ []
  | .accepting => s.woken = true → s.backlog ≠ []
  | .failed _ => s.stop = true
  | .returned status => status = Status.Ok
  | _ => True

/-- What `Run` and `Stop` rely on. -/
structure AcceptLoop.Stopping (s : AcceptLoop κ) : Prop where
  closed : s.listening = false → s.stop = true
  calls : s.stops ≠ [] → s.stop = true
  woken : s.woken = true → s.stop = true
  ahead : s.Ahead

namespace AcceptLoop

theorem start_stopping : (start Status.Ok : AcceptLoop κ).Stopping :=
  ⟨by simp [start], by simp [start], by simp [start], trivial⟩

/-- A step that is not one of `Run`. -/
theorem Ahead.outside {s s' : AcceptLoop κ} (h : s.Ahead) (hpoint : s'.point = s.point)
    (hstop : s.stop = true → s'.stop = true) (hlisten : s'.listening = true → s.listening = true)
    (hwoken : s'.woken = true → s'.backlog = [] → s.woken = true ∧ s.backlog = []) : s'.Ahead := by
  unfold Ahead at h ⊢
  rw [hpoint]
  cases hp : s.point with
  | calling =>
    rw [hp] at h
    intro hw hl hnil
    obtain ⟨hw', hnil'⟩ := hwoken hw hnil
    exact h hw' (hlisten hl) hnil'
  | accepting =>
    rw [hp] at h
    intro hw hnil
    obtain ⟨hw', hnil'⟩ := hwoken hw hnil
    exact h hw' hnil'
  | failed reason =>
    rw [hp] at h
    exact hstop h
  | returned status =>
    rw [hp] at h
    exact h
  | top => trivial
  | accepted client => trivial
  | serving client => trivial

theorem stopping_move {d : Dispatch} {s s' : AcceptLoop κ} {a : AcceptAction κ}
    (hm : AcceptMove d s a s') (ha : noFailure s a) (hs : s.Stopping) : s'.Stopping := by
  obtain ⟨hclosed, hcalls, hwoken, hahead⟩ := hs
  have hcall : ∀ {k : Nat} {t : StopPoint}, s.stops[k]? = some t → s.stop = true := fun hk =>
    hcalls (List.ne_nil_of_mem (List.mem_of_getElem? hk))
  cases hm with
  | checked hpoint =>
    refine ⟨hclosed, hcalls, hwoken, ?_⟩
    cases hstop : s.stop with
    | true => simp [Ahead]
    | false =>
      intro hw
      exact absurd ((hwoken hw).symm.trans hstop) (by decide)
  | called hpoint =>
    refine ⟨hclosed, hcalls, hwoken, ?_⟩
    unfold Ahead at hahead
    rw [hpoint] at hahead
    cases hlisten : s.listening with
    | true =>
      intro hw
      exact hahead hw hlisten
    | false => exact hclosed hlisten
  | reported hpoint =>
    refine ⟨hclosed, hcalls, hwoken, ?_⟩
    unfold Ahead at hahead
    rw [hpoint] at hahead
    exact if_pos hahead
  | discarded hpoint hstop => exact ⟨hclosed, hcalls, hwoken, rfl⟩
  | handed hpoint hstop =>
    refine ⟨hclosed, hcalls, hwoken, ?_⟩
    cases d <;> trivial
  | accepted hpoint hbacklog => exact ⟨hclosed, hcalls, hwoken, trivial⟩
  | interrupted hpoint => exact ⟨hclosed, hcalls, hwoken, trivial⟩
  | failed hpoint => exact ⟨hclosed, hcalls, hwoken, ha⟩
  | served hpoint => exact ⟨hclosed, hcalls, hwoken, trivial⟩
  | connected hreach =>
    exact ⟨hclosed, hcalls, hwoken, hahead.outside rfl id id (fun _ h => by simp at h)⟩
  | stopped =>
    exact ⟨fun _ => rfl, fun _ => rfl, fun _ => rfl,
      hahead.outside rfl (fun _ => rfl) id (fun hw h => ⟨hw, h⟩)⟩
  | unconnected hk =>
    exact ⟨hclosed, fun _ => hcall hk, hwoken, hahead.outside rfl id id (fun hw h => ⟨hw, h⟩)⟩
  | woke hk hreach =>
    exact ⟨hclosed, fun _ => hcall hk, fun _ => hcall hk,
      hahead.outside rfl id id (fun _ h => by simp at h)⟩
  | closed hk =>
    exact ⟨fun _ => hcall hk, fun _ => hcall hk, hwoken,
      hahead.outside rfl id (by simp) (fun hw h => ⟨hw, h⟩)⟩

/-- `Run` cannot move. -/
def Blocked (d : Dispatch) (s : AcceptLoop κ) : Prop :=
  ∀ a : AcceptAction κ, a.ofRun = true → s.step d a = none

theorem distance_move {d : Dispatch} {s s' : AcceptLoop κ} {a : AcceptAction κ}
    (hm : AcceptMove d s a s') (hstop : s.stop = true) :
    s'.stop = true ∧
      s'.point.distance + a.ofRun.toNat ≤ s.point.distance := by
  cases hm with
  | checked hpoint => exact ⟨hstop, by simp [hpoint, hstop, RunPoint.distance, AcceptAction.ofRun]⟩
  | called hpoint =>
    refine ⟨hstop, ?_⟩
    cases hlisten : s.listening <;> simp [hpoint, RunPoint.distance, AcceptAction.ofRun]
  | reported hpoint => exact ⟨hstop, by simp [hpoint, RunPoint.distance, AcceptAction.ofRun]⟩
  | discarded hpoint _ => exact ⟨hstop, by simp [hpoint, RunPoint.distance, AcceptAction.ofRun]⟩
  | handed hpoint hrun => exact absurd (hstop.symm.trans hrun) (by decide)
  | accepted hpoint _ => exact ⟨hstop, by simp [hpoint, RunPoint.distance, AcceptAction.ofRun]⟩
  | interrupted hpoint => exact ⟨hstop, by simp [hpoint, RunPoint.distance, AcceptAction.ofRun]⟩
  | failed hpoint => exact ⟨hstop, by simp [hpoint, RunPoint.distance, AcceptAction.ofRun]⟩
  | served hpoint => exact ⟨hstop, by simp [hpoint, RunPoint.distance, AcceptAction.ofRun]⟩
  | connected _ => exact ⟨hstop, Nat.le_refl _⟩
  | stopped => exact ⟨rfl, Nat.le_refl _⟩
  | unconnected _ => exact ⟨hstop, Nat.le_refl _⟩
  | woke _ _ => exact ⟨hstop, Nat.le_refl _⟩
  | closed _ => exact ⟨hstop, Nat.le_refl _⟩

theorem stopping_run {d : Dispatch} {s : AcceptLoop κ}
    (hr : Run (step d) (start Status.Ok) noFailure s) : s.Stopping := by
  induction hr with
  | init => exact start_stopping
  | step _ ha hstep ih => exact stopping_move (accept_move hstep) ha ih

theorem woken_move {d : Dispatch} {s s' : AcceptLoop κ} {a : AcceptAction κ}
    (hm : AcceptMove d s a s') (hwoken : s.woken = true) : s'.woken = true := by
  cases hm <;> first | exact hwoken | rfl

theorem reachable_eq_false {s : AcceptLoop κ} :
    s.reachable = false ↔ s.listening = false ∧ s.point ≠ .accepting := by
  unfold reachable
  rw [Bool.or_eq_false_iff]
  cases s.point <;> simp

/-- A listener that is gone stays so. -/
theorem unreachable_move {d : Dispatch} {s s' : AcceptLoop κ} {a : AcceptAction κ}
    (hm : AcceptMove d s a s') (hgone : s.reachable = false) : s'.reachable = false := by
  obtain ⟨hclosed, hpoint⟩ := reachable_eq_false.mp hgone
  cases hm with
  | checked _ =>
    refine reachable_eq_false.mpr ⟨hclosed, ?_⟩
    cases s.stop <;> simp
  | called _ => exact reachable_eq_false.mpr ⟨hclosed, by simp [hclosed]⟩
  | reported _ => exact reachable_eq_false.mpr ⟨hclosed, by simp⟩
  | discarded _ _ => exact reachable_eq_false.mpr ⟨hclosed, by simp⟩
  | handed _ _ =>
    refine reachable_eq_false.mpr ⟨hclosed, ?_⟩
    cases d <;> simp
  | accepted h _ => exact absurd h hpoint
  | interrupted h => exact absurd h hpoint
  | failed h => exact absurd h hpoint
  | served _ => exact reachable_eq_false.mpr ⟨hclosed, by simp⟩
  | connected hreach => exact absurd (hreach.symm.trans hgone) (by decide)
  | stopped => exact reachable_eq_false.mpr ⟨hclosed, hpoint⟩
  | unconnected _ => exact reachable_eq_false.mpr ⟨hclosed, hpoint⟩
  | woke _ hreach => exact absurd (hreach.symm.trans hgone) (by decide)
  | closed _ => exact reachable_eq_false.mpr ⟨rfl, hpoint⟩

/-- A call of `Stop` has connected, or can no longer connect. -/
def Ending (s : AcceptLoop κ) : Prop := s.woken = true ∨ s.reachable = false

theorem Ending.move {d : Dispatch} {s s' : AcceptLoop κ} {a : AcceptAction κ} (h : s.Ending)
    (hm : AcceptMove d s a s') : s'.Ending :=
  h.imp (woken_move hm) (unreachable_move hm)

theorem Stopping.stopped {s : AcceptLoop κ} (hs : s.Stopping) (hend : s.Ending) : s.stop = true :=
  hend.elim hs.woken fun hgone => hs.closed (reachable_eq_false.mp hgone).1

/-- From then on `Run` can always move until it has returned. -/
theorem Stopping.returned {d : Dispatch} {s : AcceptLoop κ} (hs : s.Stopping)
    (hend : s.Ending) (hblocked : s.Blocked d) : s.point = .returned Status.Ok := by
  have hahead := hs.ahead
  unfold Ahead at hahead
  have hrun := hblocked .run rfl
  cases hp : s.point with
  | returned status =>
    rw [hp] at hahead
    rw [hahead]
  | accepting =>
    rw [hp] at hahead
    rcases hend with hwoken | hgone
    · obtain ⟨client, backlog, hbacklog⟩ := List.exists_cons_of_ne_nil (hahead hwoken)
      simpa [step, hp, hbacklog] using hblocked .acceptReturns rfl
    · exact absurd hp (reachable_eq_false.mp hgone).2
  | serving client => simpa [step, hp] using hblocked .sessionEnds rfl
  | accepted client => simp [step, runStep, hp, hs.stopped hend] at hrun
  | top => simp [step, runStep, hp] at hrun
  | calling => simp [step, runStep, hp] at hrun
  | failed reason => simp [step, runStep, hp] at hrun

end AcceptLoop

/-- **`Stop` ends `Run`.**  Once a call of `Stop` has connected to the listener, or the listener is
gone so that none can, `Run` makes at most three more steps, in whatever order they come with those
of other threads, and when it cannot move it has returned `Ok`.  A session that is being served
counts as one step; the calls of `accept` may still fail.  Nothing else that `Stop` does shows up as
an error, in any run in which `accept` does not fail by itself before. -/
theorem stop_ends_run (d : Dispatch) {s s' : AcceptLoop κ}
    (hr : Run (step d) (start Status.Ok) noFailure s)
    (hend : s.woken = true ∨ s.reachable = false)
    {as : List (AcceptAction κ)} (hexec : exec (step d) noFailure s as = some s') :
    as.countP AcceptAction.ofRun ≤ 3 ∧
      (s'.Blocked d → s'.point = .returned Status.Ok) ∧
      ∀ status, s'.point = .returned status → status = Status.Ok := by
  have hs := stopping_run hr
  obtain ⟨⟨hs', hend'⟩, hle⟩ := countP_le_of_exec
    (I := fun q : AcceptLoop κ => q.Stopping ∧ q.Ending)
    (μ := fun q => q.point.distance) (p := AcceptAction.ofRun)
    (by
      rintro q a q' ⟨hq, hqend⟩ ha hstep
      have hm := accept_move hstep
      exact ⟨⟨stopping_move hm ha hq, hqend.move hm⟩, (distance_move hm (hq.stopped hqend)).2⟩)
    as ⟨hs, hend⟩ hexec
  refine ⟨?_, hs'.returned hend', fun status hstatus => ?_⟩
  · have hthree : s.point.distance ≤ 3 := s.point.distance_le
    omega
  · have hahead := hs'.ahead
    unfold Ahead at hahead
    rw [hstatus] at hahead
    exact hahead

/-- `Run` is blocked in `accept` when `Stop` is called, and a client that came first is taken for the
wakeup; and `Run` is about to call `accept` when the connection of `Stop` fails and the listener is
closed. -/
theorem stop_ends_run_blocked :
    (∃ s s' : AcceptLoop Nat, Run (step .serve) (start Status.Ok) noFailure s ∧ s.woken = true ∧
      exec (step .serve) noFailure s [.acceptReturns, .stopCloses 0, .run] = some s' ∧
      s'.discarded = [7] ∧ (s'.Blocked .serve → s'.point = .returned Status.Ok)) ∧
    ∃ s s' : AcceptLoop Nat, Run (step .submit) (start Status.Ok) noFailure s ∧
      s.woken = false ∧ s.reachable = false ∧
      exec (step .submit) noFailure s [.run, .callStop, .run] = some s' ∧
      (s'.Blocked .submit → s'.point = .returned Status.Ok) := by
  constructor
  · obtain ⟨s, hr, hs⟩ : ∃ s : AcceptLoop Nat, Run (step .serve) (start Status.Ok) noFailure s ∧
        decide (s.woken = true ∧ (exec (step .serve) noFailure s
          [.acceptReturns, .stopCloses 0, .run]).any (fun q => decide (q.discarded = [7])) =
            true) = true :=
      exists_run [.run, .run, .callStop, .connect 7, .stopConnects 0 (some 8)] (by decide +kernel)
    obtain ⟨hwoken, hany⟩ := of_decide_eq_true hs
    obtain ⟨s', hexec, hs'⟩ := exists_of_any hany
    exact ⟨s, s', hr, hwoken, hexec, of_decide_eq_true hs',
      (stop_ends_run .serve hr (Or.inl hwoken) hexec).2.1⟩
  · obtain ⟨s, hr, hs⟩ : ∃ s : AcceptLoop Nat, Run (step .submit) (start Status.Ok) noFailure s ∧
        decide (s.woken = false ∧ s.reachable = false ∧ (exec (step .submit) noFailure s
          [.run, .callStop, .run]).any (fun q => decide (q.stop = true)) = true) = true :=
      exists_run [.run, .callStop, .stopConnects 0 none, .stopCloses 0] (by decide +kernel)
    obtain ⟨hwoken, hgone, hany⟩ := of_decide_eq_true hs
    obtain ⟨s', hexec, _⟩ := exists_of_any hany
    exact ⟨s, s', hr, hwoken, hgone, hexec,
      (stop_ends_run .submit hr (Or.inr hgone) hexec).2.1⟩

/-! ## Connections -/

/-- The connection that `accept` has returned and `Run` has not yet dealt with. -/
def RunPoint.inHand : RunPoint κ → List κ
  | .accepted client => [client]
  | _ => []

/-- Where the accepted connections are. -/
structure AcceptLoop.Balanced (s : AcceptLoop κ) : Prop where
  all : s.taken = s.handed ++ s.discarded ++ s.point.inHand
  last : s.discarded = [] ∨ ∃ client, s.discarded = [client] ∧ s.point = .returned Status.Ok

namespace AcceptLoop

theorem start_balanced (bindStatus : Status) : (start bindStatus : AcceptLoop κ).Balanced := by
  unfold start
  split <;> exact ⟨rfl, Or.inl rfl⟩

/-- A step of `Run` before it returns: nothing has been discarded so far. -/
theorem Balanced.none_discarded {s : AcceptLoop κ} (hs : s.Balanced)
    (hpoint : ∀ status, s.point ≠ .returned status) : s.discarded = [] :=
  hs.last.resolve_right fun ⟨_, _, hreturned⟩ => hpoint _ hreturned

theorem balanced_move {d : Dispatch} {s s' : AcceptLoop κ} {a : AcceptAction κ}
    (hm : AcceptMove d s a s') (hs : s.Balanced) : s'.Balanced := by
  have hall := hs.all
  cases hm with
  | checked hpoint =>
    rw [hpoint] at hall
    refine ⟨?_, Or.inl (hs.none_discarded (by simp [hpoint]))⟩
    cases s.stop <;> exact hall
  | called hpoint =>
    rw [hpoint] at hall
    refine ⟨?_, Or.inl (hs.none_discarded (by simp [hpoint]))⟩
    cases s.listening <;> exact hall
  | reported hpoint =>
    rw [hpoint] at hall
    exact ⟨hall, Or.inl (hs.none_discarded (by simp [hpoint]))⟩
  | @discarded client hpoint hstop =>
    have hnone := hs.none_discarded (by simp [hpoint])
    rw [hpoint, hnone] at hall
    refine ⟨?_, Or.inr ⟨client, by simp [hnone], rfl⟩⟩
    simpa [hnone, RunPoint.inHand] using hall
  | handed hpoint hstop =>
    have hnone := hs.none_discarded (by simp [hpoint])
    rw [hpoint, hnone] at hall
    refine ⟨?_, Or.inl hnone⟩
    cases d <;> simpa [hnone, RunPoint.inHand] using hall
  | accepted hpoint hbacklog =>
    rw [hpoint] at hall
    refine ⟨?_, Or.inl (hs.none_discarded (by simp [hpoint]))⟩
    simp [hall, RunPoint.inHand]
  | interrupted hpoint =>
    rw [hpoint] at hall
    exact ⟨hall, Or.inl (hs.none_discarded (by simp [hpoint]))⟩
  | failed hpoint =>
    rw [hpoint] at hall
    exact ⟨hall, Or.inl (hs.none_discarded (by simp [hpoint]))⟩
  | served hpoint =>
    rw [hpoint] at hall
    exact ⟨hall, Or.inl (hs.none_discarded (by simp [hpoint]))⟩
  | connected _ => exact ⟨hall, hs.last⟩
  | stopped => exact ⟨hall, hs.last⟩
  | unconnected _ => exact ⟨hall, hs.last⟩
  | woke _ _ => exact ⟨hall, hs.last⟩
  | closed _ => exact ⟨hall, hs.last⟩

end AcceptLoop

/-! ## The server with a pool -/

/-- `ThreadPoolServer`: a task of the pool is a connection, whose session ends with the connection
being closed. -/
structure ThreadPoolServer (κ : Type) where
  loop : AcceptLoop κ
  pool : ThreadPool κ
  deriving DecidableEq, Repr

inductive PoolServerAction (κ : Type) where
  | loop (a : AcceptAction κ)
  | pool (a : PoolAction κ)
  deriving DecidableEq, Repr

namespace ThreadPoolServer

def start (bindStatus : Status) (numWorkers : Nat) : ThreadPoolServer κ :=
  { loop := AcceptLoop.start bindStatus, pool := ThreadPool.create numWorkers }

/-- The connection that a step of `Run` passes to `pool_.Submit`. -/
def submitted (loop : AcceptLoop κ) : AcceptAction κ → Option κ
  | .run =>
    match loop.point with
    | .accepted client => if loop.stop then none else some client
    | _ => none
  | _ => none

/-- The server calls `Submit` from `Run` only, and it is destroyed after `Run` has returned. -/
def allows (loop : AcceptLoop κ) : PoolAction κ → Bool
  | .submit _ => false
  | .destroy =>
    match loop.point with
    | .returned _ => true
    | _ => false
  | _ => true

def step (s : ThreadPoolServer κ) : PoolServerAction κ → Option (ThreadPoolServer κ)
  | .loop a =>
    (s.loop.step .submit a).map fun loop =>
      { loop := loop
        pool := match submitted s.loop a with
          | none => s.pool
          | some client => s.pool.submit client }
  | .pool a =>
    if allows s.loop a then (s.pool.step a).map fun pool => { s with pool := pool } else none

/-- What a step does: a step of the loop that leaves the pool alone, one that submits a connection,
or a step of the pool. -/
inductive ServerMove (s : ThreadPoolServer κ) : ThreadPoolServer κ → Prop where
  | looped {a : AcceptAction κ} {loop : AcceptLoop κ} (hm : AcceptMove .submit s.loop a loop)
      (hhanded : loop.handed = s.loop.handed) : ServerMove s { s with loop := loop }
  | submitted {client : κ} {loop : AcceptLoop κ} (hm : AcceptMove .submit s.loop .run loop)
      (hpoint : s.loop.point = .accepted client) (hhanded : loop.handed = s.loop.handed ++ [client]) :
    ServerMove s { loop := loop, pool := s.pool.submit client }
  | pooled {a : PoolAction κ} {pool : ThreadPool κ} (hallows : allows s.loop a = true)
      (hm : PoolMove s.pool a pool) : ServerMove s { s with pool := pool }

theorem server_move {s s' : ThreadPoolServer κ} {a : PoolServerAction κ} (h : s.step a = some s') :
    ServerMove s s' := by
  cases a with
  | pool a =>
    simp only [step] at h
    split at h
    · rename_i hallows
      obtain ⟨pool, hpool, rfl⟩ := Option.map_eq_some_iff.mp h
      exact .pooled hallows (pool_move hpool)
    · cases h
  | loop a =>
    obtain ⟨loop, hloop, rfl⟩ := Option.map_eq_some_iff.mp h
    have hm := accept_move hloop
    cases hm with
    | @handed client hpoint hstop =>
      have hsubmit : submitted s.loop .run = some client := by simp [submitted, hpoint, hstop]
      rw [hsubmit]
      exact .submitted (.handed hpoint hstop) hpoint rfl
    | discarded hpoint hstop =>
      have hsubmit : submitted s.loop .run = none := by simp [submitted, hpoint, hstop]
      rw [hsubmit]
      exact .looped (.discarded hpoint hstop) rfl
    | checked hpoint =>
      have hsubmit : submitted s.loop .run = none := by simp [submitted, hpoint]
      rw [hsubmit]
      exact .looped (.checked hpoint) rfl
    | called hpoint =>
      have hsubmit : submitted s.loop .run = none := by simp [submitted, hpoint]
      rw [hsubmit]
      exact .looped (.called hpoint) rfl
    | reported hpoint =>
      have hsubmit : submitted s.loop .run = none := by simp [submitted, hpoint]
      rw [hsubmit]
      exact .looped (.reported hpoint) rfl
    | accepted hpoint hbacklog => exact .looped (.accepted hpoint hbacklog) rfl
    | interrupted hpoint => exact .looped (.interrupted hpoint) rfl
    | failed hpoint => exact .looped (.failed hpoint) rfl
    | served hpoint => exact .looped (.served hpoint) rfl
    | connected hreach => exact .looped (.connected hreach) rfl
    | stopped => exact .looped .stopped rfl
    | unconnected hk => exact .looped (.unconnected hk) rfl
    | woke hk hreach => exact .looped (.woke hk hreach) rfl
    | closed hk => exact .looped (.closed hk) rfl

theorem returned_move {d : Dispatch} {s s' : AcceptLoop κ} {a : AcceptAction κ}
    (hm : AcceptMove d s a s') {status : Status} (h : s.point = .returned status) :
    s'.point = .returned status := by
  cases hm <;> simp_all

/-- The pool has what `Run` has submitted, and outlives it. -/
structure Serving (n : Nat) (s : ThreadPoolServer κ) : Prop where
  balanced : s.loop.Balanced
  sound : s.pool.Sound
  size : s.pool.workers.length = n
  accepted : s.pool.accepted = s.loop.handed
  outlives : s.pool.stop = true → ∃ status, s.loop.point = .returned status

theorem serving_move {n : Nat} {s s' : ThreadPoolServer κ} (hm : ServerMove s s')
    (hs : Serving n s) : Serving n s' := by
  cases hm with
  | looped hm hhanded =>
    refine ⟨balanced_move hm hs.balanced, hs.sound, hs.size, hs.accepted.trans hhanded.symm, ?_⟩
    intro hstop
    obtain ⟨status, hstatus⟩ := hs.outlives hstop
    exact ⟨status, returned_move hm hstatus⟩
  | @submitted client loop hm hpoint hhanded =>
    -- `Run` has not returned, so the pool has not been stopped and takes the connection
    have hrun : s.pool.stop = false := by
      cases hstop : s.pool.stop with
      | false => rfl
      | true =>
        obtain ⟨status, hstatus⟩ := hs.outlives hstop
        rw [hpoint] at hstatus
        cases hstatus
    have hpool : PoolMove s.pool (.submit client) (s.pool.submit client) := pool_move rfl
    refine ⟨balanced_move hm hs.balanced, ThreadPool.sound_move hpool hs.sound,
      (ThreadPool.length_workers_move hpool).trans hs.size, ?_, ?_⟩
    · simp [ThreadPool.submit, hrun, hs.accepted, hhanded]
    · intro hstop
      simp [ThreadPool.submit, hrun] at hstop
  | pooled hallows hm =>
    refine ⟨hs.balanced, ThreadPool.sound_move hm hs.sound,
      (ThreadPool.length_workers_move hm).trans hs.size, ?_, ?_⟩
    · cases hm with
      | dropped _ => cases hallows
      | queued _ => cases hallows
      | _ => exact hs.accepted
    · intro hstop
      cases hm with
      | dropped _ => cases hallows
      | queued _ => cases hallows
      | destroyed _ =>
        simp only [allows] at hallows
        split at hallows
        · rename_i status hstatus
          exact ⟨status, hstatus⟩
        · cases hallows
      | _ => exact hs.outlives hstop

theorem serving_run {n : Nat} {bindStatus : Status} {s : ThreadPoolServer κ}
    (hr : Run step (start bindStatus n) anyStep s) : Serving n s := by
  induction hr with
  | init =>
    refine ⟨start_balanced bindStatus, ThreadPool.create_sound n, by simp [start, ThreadPool.create],
      ?_, ?_⟩
    · unfold start AcceptLoop.start
      split <;> rfl
    · intro h
      cases h
  | step _ _ hstep ih => exact serving_move (server_move hstep) ih

/-- The connections that have been closed: by `Run`, or at the end of their session. -/
def closed (s : ThreadPoolServer κ) : List κ := s.loop.discarded ++ s.pool.finished

/-- The connections that are still open: returned by `accept` just now, queued, or being served. -/
def opened (s : ThreadPoolServer κ) : List κ :=
  s.loop.point.inHand ++ s.pool.tasks ++ s.pool.running

end ThreadPoolServer

/-- **Every connection that `accept` returned is closed once**: at any time it is either open or
closed, and closed once; `Run` closes at most one of them unserved, and only when it returns; and
when the server has been destroyed, all of them have been closed. -/
theorem pool_server_closes_each_once {n : Nat} (hn : 0 < n) {bindStatus : Status}
    {s : ThreadPoolServer κ}
    (hr : Run ThreadPoolServer.step (ThreadPoolServer.start bindStatus n) anyStep s) :
    (s.closed ++ s.opened).Perm s.loop.taken ∧
      (s.loop.discarded = [] ∨ ∃ client,
        s.loop.discarded = [client] ∧ s.loop.point = .returned Status.Ok) ∧
      (s.pool.Destroyed → s.opened = [] ∧ s.closed.Perm s.loop.taken) := by
  have hs := ThreadPoolServer.serving_run hr
  have hall : (s.closed ++ s.opened).Perm s.loop.taken := by
    have hpool : (s.pool.finished ++ s.pool.running ++ s.pool.tasks).Perm s.loop.handed := by
      rw [← hs.accepted, ← hs.sound.fifo]
      exact hs.sound.kept.append_right _
    rw [hs.balanced.all]
    have hsplit : (s.closed ++ s.opened).Perm
        (s.pool.finished ++ s.pool.running ++ s.pool.tasks ++ s.loop.discarded ++
          s.loop.point.inHand) := by
      rw [← Multiset.coe_eq_coe]
      simp only [ThreadPoolServer.closed, ThreadPoolServer.opened, ← Multiset.coe_add]
      abel
    exact hsplit.trans ((hpool.append_right _).append_right _)
  refine ⟨hall, hs.balanced.last, fun hd => ?_⟩
  have hgone := hs.sound.destroyed hd
  have hexited : .exited ∈ s.pool.workers := by
    obtain ⟨w, hw⟩ := List.exists_mem_of_length_pos (hs.size ▸ hn : 0 < s.pool.workers.length)
    exact hgone w hw ▸ hw
  obtain ⟨hstop, htasks⟩ := hs.sound.drained hexited
  obtain ⟨status, hstatus⟩ := hs.outlives hstop
  have hrunning : s.pool.running = [] := List.filterMap_eq_nil_iff.mpr fun w hw => by
    rw [hgone w hw]
    rfl
  have hnone : s.opened = [] := by
    simp [ThreadPoolServer.opened, hstatus, RunPoint.inHand, htasks, hrunning]
  refine ⟨hnone, ?_⟩
  rw [hnone, List.append_nil] at hall
  exact hall

/-- Two clients are accepted, the second while the only worker serves the first; the wakeup of
`Stop` is discarded. -/
theorem pool_server_closes_two :
    ∃ s : ThreadPoolServer Nat,
      Run ThreadPoolServer.step (ThreadPoolServer.start Status.Ok 1) anyStep s ∧
      s.pool.Destroyed ∧ s.loop.taken = [1, 2, 3] ∧ s.loop.discarded = [3] ∧
      s.closed.Perm s.loop.taken := by
  obtain ⟨s, hr, hs⟩ : ∃ s : ThreadPoolServer Nat,
      Run ThreadPoolServer.step (ThreadPoolServer.start Status.Ok 1) anyStep s ∧
      decide (s.pool.Destroyed ∧ s.loop.taken = [1, 2, 3] ∧ s.loop.discarded = [3]) = true :=
    exists_run
      [.loop .run, .loop .run, .loop (.connect 1), .loop .acceptReturns, .loop .run,
        .pool (.lock 0), .loop .run, .loop .run, .loop (.connect 2), .loop .acceptReturns,
        .loop .run, .loop .run, .loop .run, .loop .callStop, .loop (.stopConnects 0 (some 3)),
        .loop .acceptReturns, .loop (.stopCloses 0), .loop .run, .pool (.finish 0),
        .pool (.lock 0), .pool .destroy, .pool .notifyAll, .pool (.finish 0), .pool (.lock 0),
        .pool .join] (by decide +kernel)
  obtain ⟨hd, htaken, hdiscarded⟩ := of_decide_eq_true hs
  exact ⟨s, hr, hd, htaken, hdiscarded,
    ((pool_server_closes_each_once (by decide) hr).2.2 hd).2⟩

end NeuralKV
