import NeuralKV.Lib.Runs

/-!
# The thread pool

Model of `src/concurrency/thread_pool.cpp`.  A step is one section under `mutex_`, one notification
of `cv_`, or a task that returns.  `Submit` and the destructor notify after they have released the
lock, so other threads may run in between; a notification wakes one worker of the system's choice,
and a worker may wake up without one.

* `ThreadPool.step` — the workers, any number of callers of `Submit`, and the destructor.
* `PoolMove`, `pool_move` — what a step can do.
* `pool_runs_each_once` — **every accepted task is started once, in the order of the `Submit` calls,
  and has returned once the destructor has**.
* `pool_never_stalls` — **no wakeup is lost**: a worker sleeps only if there are as many workers and
  notifications under way as there are tasks, so a pool in which nothing moves has nothing left to
  do.
* `shutdown_completes` — **the destructor returns** after a bounded number of steps, whatever their
  order.
-/

set_option autoImplicit false

namespace NeuralKV

open Runs (Run anyStep exec exists_of_any exists_run exists_others countP_le_of_exec)

variable {τ : Type}

/-- Where a worker is in `WorkerLoop`. -/
inductive Worker (τ : Type) where
  /-- About to take the lock, at the top of the loop or woken up. -/
  | ready
  /-- Asleep in `cv_.wait`. -/
  | waiting
  | running (task : τ)
  | exited
  deriving DecidableEq, Repr

/-- Where the destructor is. -/
inductive Teardown where
  | notCalled
  /-- `stop_` is set, `notify_all` not yet called. -/
  | stopping
  /-- So many workers have been joined. -/
  | joining (joined : Nat)
  deriving DecidableEq, Repr

structure ThreadPool (τ : Type) where
  workers : List (Worker τ)
  tasks : List τ := []
  stop : Bool := false
  /-- Calls of `Submit` that have released the lock and not yet called `notify_one`. -/
  notifying : Nat := 0
  teardown : Teardown := .notCalled
  /-- History: the tasks that `Submit` queued, that a worker took, and that have returned. -/
  accepted : List τ := []
  started : List τ := []
  finished : List τ := []
  deriving DecidableEq, Repr

inductive PoolAction (τ : Type) where
  | submit (task : τ)
  /-- `notify_one` wakes this worker, or finds none asleep. -/
  | notifyOne (woken : Option Nat)
  /-- A wakeup that nobody asked for. -/
  | wake (k : Nat)
  /-- The section of `WorkerLoop` under the lock. -/
  | lock (k : Nat)
  /-- The task of worker `k` returns. -/
  | finish (k : Nat)
  | destroy
  | notifyAll
  | join
  deriving DecidableEq, Repr

namespace Worker

def isReady : Worker τ → Bool
  | ready => true
  | _ => false

def isWaiting : Worker τ → Bool
  | waiting => true
  | _ => false

def task? : Worker τ → Option τ
  | running task => some task
  | _ => none

/-- What `notify_all` does to a worker. -/
def woken : Worker τ → Worker τ
  | waiting => ready
  | w => w

end Worker

namespace ThreadPool

/-- The constructor. -/
def create (numWorkers : Nat) : ThreadPool τ := { workers := List.replicate numWorkers .ready }

/-- `ThreadPool::Submit`, the section under the lock. -/
def submit (p : ThreadPool τ) (task : τ) : ThreadPool τ :=
  if p.stop then p
  else
    { p with
      tasks := p.tasks ++ [task]
      notifying := p.notifying + 1
      accepted := p.accepted ++ [task] }

/-- The section of `ThreadPool::WorkerLoop` under the lock: wait, return, or take a task. -/
def workerLock (p : ThreadPool τ) (k : Nat) : ThreadPool τ :=
  match p.tasks with
  | [] =>
    if p.stop then { p with workers := p.workers.set k .exited }
    else { p with workers := p.workers.set k .waiting }
  | task :: tasks =>
    { p with
      tasks := tasks
      workers := p.workers.set k (.running task)
      started := p.started ++ [task] }

def step (p : ThreadPool τ) : PoolAction τ → Option (ThreadPool τ)
  | .submit task => some (p.submit task)
  | .notifyOne none =>
    if 0 < p.notifying ∧ p.workers.any Worker.isWaiting = false then
      some { p with notifying := p.notifying - 1 }
    else none
  | .notifyOne (some k) =>
    match p.workers[k]? with
    | some .waiting =>
      if 0 < p.notifying then
        some { p with notifying := p.notifying - 1, workers := p.workers.set k .ready }
      else none
    | _ => none
  | .wake k =>
    match p.workers[k]? with
    | some .waiting => some { p with workers := p.workers.set k .ready }
    | _ => none
  | .lock k =>
    match p.workers[k]? with
    | some .ready => some (p.workerLock k)
    | _ => none
  | .finish k =>
    match p.workers[k]? with
    | some (.running task) =>
      some { p with workers := p.workers.set k .ready, finished := p.finished ++ [task] }
    | _ => none
  | .destroy =>
    if p.teardown = .notCalled then some { p with stop := true, teardown := .stopping } else none
  | .notifyAll =>
    if p.teardown = .stopping then
      some { p with workers := p.workers.map Worker.woken, teardown := .joining 0 }
    else none
  | .join =>
    match p.teardown with
    | .joining joined =>
      match p.workers[joined]? with
      | some .exited => some { p with teardown := .joining (joined + 1) }
      | _ => none
    | _ => none

/-- The tasks that are being executed. -/
def running (p : ThreadPool τ) : List τ := p.workers.filterMap Worker.task?

/-- The destructor has returned. -/
def Destroyed (p : ThreadPool τ) : Prop := p.teardown = .joining p.workers.length

instance (p : ThreadPool τ) : Decidable p.Destroyed := inferInstanceAs (Decidable (_ = _))

end ThreadPool

/-! ## What a step can do -/

open ThreadPool

/-- **What a step can do**: a caller of `Submit` or the destructor moves, or one worker does. -/
inductive PoolMove (p : ThreadPool τ) : PoolAction τ → ThreadPool τ → Prop where
  | dropped {task : τ} (hstop : p.stop = true) : PoolMove p (.submit task) p
  | queued {task : τ} (hstop : p.stop = false) :
    PoolMove p (.submit task)
      { p with
        tasks := p.tasks ++ [task]
        notifying := p.notifying + 1
        accepted := p.accepted ++ [task] }
  | unheard (hn : 0 < p.notifying) (hawake : ∀ w ∈ p.workers, w.isWaiting = false) :
    PoolMove p (.notifyOne none) { p with notifying := p.notifying - 1 }
  | notified {k : Nat} (hk : p.workers[k]? = some .waiting) (hn : 0 < p.notifying) :
    PoolMove p (.notifyOne (some k))
      { p with notifying := p.notifying - 1, workers := p.workers.set k .ready }
  | woke {k : Nat} (hk : p.workers[k]? = some .waiting) :
    PoolMove p (.wake k) { p with workers := p.workers.set k .ready }
  | slept {k : Nat} (hk : p.workers[k]? = some .ready) (hempty : p.tasks = [])
      (hstop : p.stop = false) :
    PoolMove p (.lock k) { p with workers := p.workers.set k .waiting }
  | exited {k : Nat} (hk : p.workers[k]? = some .ready) (hempty : p.tasks = [])
      (hstop : p.stop = true) :
    PoolMove p (.lock k) { p with workers := p.workers.set k .exited }
  | took {k : Nat} {task : τ} {tasks : List τ} (hk : p.workers[k]? = some .ready)
      (htasks : p.tasks = task :: tasks) :
    PoolMove p (.lock k)
      { p with
        tasks := tasks
        workers := p.workers.set k (.running task)
        started := p.started ++ [task] }
  | finished {k : Nat} {task : τ} (hk : p.workers[k]? = some (.running task)) :
    PoolMove p (.finish k)
      { p with workers := p.workers.set k .ready, finished := p.finished ++ [task] }
  | destroyed (hnot : p.teardown = .notCalled) :
    PoolMove p .destroy { p with stop := true, teardown := .stopping }
  | notifiedAll (hstopping : p.teardown = .stopping) :
    PoolMove p .notifyAll
      { p with workers := p.workers.map Worker.woken, teardown := .joining 0 }
  | joined {joined : Nat} (hjoining : p.teardown = .joining joined)
      (hexited : p.workers[joined]? = some .exited) :
    PoolMove p .join { p with teardown := .joining (joined + 1) }

theorem pool_move {p p' : ThreadPool τ} {a : PoolAction τ} (h : p.step a = some p') :
    PoolMove p a p' := by
  cases a with
  | submit task =>
    cases h
    unfold submit
    split
    · rename_i hstop
      exact .dropped hstop
    · rename_i hstop
      exact .queued (Bool.eq_false_iff.mpr hstop)
  | notifyOne woken =>
    cases woken with
    | none =>
      simp only [step] at h
      split at h
      · rename_i hc
        cases h
        exact .unheard hc.1 (by simpa using hc.2)
      · cases h
    | some k =>
      simp only [step] at h
      split at h
      · rename_i hk
        split at h
        · rename_i hn
          cases h
          exact .notified hk hn
        · cases h
      · cases h
  | wake k =>
    simp only [step] at h
    split at h
    · rename_i hk
      cases h
      exact .woke hk
    · cases h
  | lock k =>
    simp only [step] at h
    split at h
    · rename_i hk
      cases h
      unfold workerLock
      split
      · rename_i hempty
        split
        · rename_i hstop
          exact .exited hk hempty hstop
        · rename_i hstop
          exact .slept hk hempty (Bool.eq_false_iff.mpr hstop)
      · rename_i htasks
        exact .took hk htasks
    · cases h
  | finish k =>
    simp only [step] at h
    split at h
    · rename_i hk
      cases h
      exact .finished hk
    · cases h
  | destroy =>
    simp only [step] at h
    split at h
    · rename_i hnot
      cases h
      exact .destroyed hnot
    · cases h
  | notifyAll =>
    simp only [step] at h
    split at h
    · rename_i hstopping
      cases h
      exact .notifiedAll hstopping
    · cases h
  | join =>
    simp only [step] at h
    split at h
    · rename_i joined hjoining
      split at h
      · rename_i hexited
        cases h
        exact .joined hjoining hexited
      · cases h
    · cases h

/-! ## The invariant -/

/-- What holds of a pool in every interleaving. -/
structure ThreadPool.Sound (p : ThreadPool τ) : Prop where
  fifo : p.started ++ p.tasks = p.accepted
  kept : (p.finished ++ p.running).Perm p.started
  /-- A worker sleeps only if every task has a worker or a notification coming. -/
  covered : .waiting ∈ p.workers → p.tasks.length ≤ p.workers.countP Worker.isReady + p.notifying
  drained : .exited ∈ p.workers → p.stop = true ∧ p.tasks = []
  stopped : p.stop = true ↔ p.teardown ≠ .notCalled
  awake : ∀ joined, p.teardown = .joining joined → .waiting ∉ p.workers
  joined : ∀ joined, p.teardown = .joining joined →
    joined ≤ p.workers.length ∧ ∀ i < joined, p.workers[i]? = some .exited

namespace ThreadPool

theorem create_sound (n : Nat) : (create n : ThreadPool τ).Sound where
  fifo := rfl
  kept := by
    have hnone : (create n : ThreadPool τ).running = [] := by
      simp [running, create, Worker.task?]
    rw [hnone]
    exact List.Perm.nil
  covered h := by
    cases (List.mem_replicate.mp h).2
  drained h := by
    cases (List.mem_replicate.mp h).2
  stopped := by simp [create]
  awake _ h := by cases h
  joined _ h := by cases h

section Moves

variable {p : ThreadPool τ} {k : Nat} {u : Worker τ}

/-- The tasks in execution when one worker moves. -/
theorem running_set (hk : p.workers[k]? = some u) :
    ∃ others : List τ, p.running.Perm (u.task?.toList ++ others) ∧
      ∀ t : Worker τ, ((p.workers.set k t).filterMap Worker.task?).Perm
        (t.task?.toList ++ others) := by
  obtain ⟨others, hbefore, hafter⟩ := exists_others hk
  have hcons : ∀ t : Worker τ, (t :: others).filterMap Worker.task? =
      t.task?.toList ++ others.filterMap Worker.task? := by
    intro t
    cases t <;> rfl
  refine ⟨others.filterMap Worker.task?, ?_, fun t => ?_⟩
  · rw [← hcons]
    exact hbefore.filterMap _
  · rw [← hcons]
    exact (hafter t).filterMap _

theorem countP_ready_set (hk : p.workers[k]? = some u) :
    ∃ c, p.workers.countP Worker.isReady = c + u.isReady.toNat ∧
      ∀ t : Worker τ, (p.workers.set k t).countP Worker.isReady = c + t.isReady.toNat := by
  obtain ⟨others, hbefore, hafter⟩ := exists_others hk
  have hcons : ∀ t : Worker τ, (t :: others).countP Worker.isReady =
      others.countP Worker.isReady + t.isReady.toNat := by
    intro t
    rw [List.countP_cons]
    cases t <;> rfl
  refine ⟨others.countP Worker.isReady, ?_, fun t => ?_⟩
  · rw [hbefore.countP_eq, hcons]
  · rw [(hafter t).countP_eq, hcons]

theorem mem_of_mem_set {w t : Worker τ} (h : w ∈ p.workers.set k t) : w = t ∨ w ∈ p.workers :=
  (List.mem_or_eq_of_mem_set h).symm

/-- A worker moves, and the balance of tasks, ready workers and notifications does not get worse. -/
theorem covered_set (hk : p.workers[k]? = some u) {t : Worker τ} {n n' m m' : Nat}
    (h : .waiting ∈ p.workers → n ≤ p.workers.countP Worker.isReady + m)
    (hbalance : n' = 0 ∨ t ≠ .waiting ∧ n' + u.isReady.toNat + m ≤ n + t.isReady.toNat + m') :
    .waiting ∈ p.workers.set k t → n' ≤ (p.workers.set k t).countP Worker.isReady + m' := by
  intro hmem
  rcases hbalance with hzero | ⟨ht, hbalance⟩
  · omega
  rcases mem_of_mem_set hmem with hwait | hwait
  · exact absurd hwait.symm ht
  · obtain ⟨c, hbefore, hafter⟩ := countP_ready_set hk
    have hle := h hwait
    rw [hafter t]
    omega

/-- A joined worker is not the one that moves. -/
theorem joined_set (hk : p.workers[k]? = some u) (hu : u ≠ .exited) {t : Worker τ} {joined : Nat}
    (h : joined ≤ p.workers.length ∧ ∀ i < joined, p.workers[i]? = some .exited) :
    joined ≤ (p.workers.set k t).length ∧
      ∀ i < joined, (p.workers.set k t)[i]? = some .exited := by
  refine ⟨by simpa using h.1, fun i hi => ?_⟩
  have hexited := h.2 i hi
  have hne : k ≠ i := by
    rintro rfl
    rw [hk] at hexited
    exact hu (Option.some.inj hexited)
  rw [List.getElem?_set_ne hne]
  exact hexited

/-- **One worker moves** from `u` to `t`: what is left to show. -/
theorem Sound.worker (hp : p.Sound) (hk : p.workers[k]? = some u) (hu : u ≠ .exited)
    {q : ThreadPool τ} {t : Worker τ} (hworkers : q.workers = p.workers.set k t)
    (hstop : q.stop = p.stop) (hteardown : q.teardown = p.teardown)
    (hfifo : q.started ++ q.tasks = q.accepted)
    (hkept : ∀ others, (p.finished ++ (u.task?.toList ++ others)).Perm p.started →
      (q.finished ++ (t.task?.toList ++ others)).Perm q.started)
    (hbalance : q.tasks.length = 0 ∨ t ≠ .waiting ∧ q.tasks.length + u.isReady.toNat + p.notifying ≤
      p.tasks.length + t.isReady.toNat + q.notifying)
    (htasks : p.tasks = [] → q.tasks = [])
    (hsleep : t = .waiting → p.stop = false)
    (hexit : t = .exited → p.stop = true ∧ q.tasks = []) : q.Sound := by
  refine ⟨hfifo, ?_, ?_, ?_, ?_, ?_, ?_⟩
  · obtain ⟨others, hbefore, hafter⟩ := running_set hk
    rw [running, hworkers]
    exact ((hafter t).append_left _).trans
      (hkept others ((hbefore.symm.append_left _).trans hp.kept))
  · rw [hworkers]
    exact covered_set hk hp.covered hbalance
  · intro hmem
    rw [hworkers] at hmem
    rw [hstop]
    rcases mem_of_mem_set hmem with h | h
    · exact hexit h.symm
    · exact ⟨(hp.drained h).1, htasks (hp.drained h).2⟩
  · rw [hstop, hteardown]
    exact hp.stopped
  · intro joined hj hmem
    rw [hteardown] at hj
    rw [hworkers] at hmem
    rcases mem_of_mem_set hmem with h | h
    · have hstopped : p.stop = true := hp.stopped.mpr (by simp [hj])
      exact absurd (hstopped.symm.trans (hsleep h.symm)) (by decide)
    · exact hp.awake joined hj h
  · intro joined hj
    rw [hteardown] at hj
    rw [hworkers]
    exact joined_set hk hu (hp.joined joined hj)

end Moves

theorem woken_ne_waiting (w : Worker τ) : w.woken ≠ .waiting := by
  cases w <;> simp [Worker.woken]

theorem woken_eq_exited {w : Worker τ} : w.woken = .exited ↔ w = .exited := by
  cases w <;> simp [Worker.woken]

theorem task?_woken (w : Worker τ) : w.woken.task? = w.task? := by
  cases w <;> rfl

theorem sound_move {p p' : ThreadPool τ} {a : PoolAction τ} (hm : PoolMove p a p')
    (hp : p.Sound) : p'.Sound := by
  cases hm with
  | dropped hstop => exact hp
  | queued hstop =>
    refine ⟨?_, hp.kept, ?_, ?_, hp.stopped, hp.awake, hp.joined⟩
    · simp only [← hp.fifo, List.append_assoc]
    · intro hmem
      have hle := hp.covered hmem
      simp only [List.length_append, List.length_singleton]
      omega
    · intro hmem
      exact absurd ((hp.drained hmem).1.symm.trans hstop) (by decide)
  | unheard hn hawake =>
    refine ⟨hp.fifo, hp.kept, ?_, hp.drained, hp.stopped, hp.awake, hp.joined⟩
    intro hmem
    cases hawake _ hmem
  | notified hk hn =>
    refine hp.worker hk (by simp) rfl rfl rfl hp.fifo (fun _ h => h) (Or.inr ⟨by simp, ?_⟩) id
      (by simp) (by simp)
    simp only [Worker.isReady, Bool.toNat_false, Bool.toNat_true]
    omega
  | woke hk =>
    exact hp.worker hk (by simp) rfl rfl rfl hp.fifo (fun _ h => h)
      (Or.inr ⟨by simp, by simp [Worker.isReady]⟩) id (by simp) (by simp)
  | slept hk hempty hstop =>
    exact hp.worker hk (by simp) rfl rfl rfl hp.fifo (fun _ h => h) (Or.inl (by simp [hempty])) id
      (fun _ => hstop) (by simp)
  | exited hk hempty hstop =>
    exact hp.worker hk (by simp) rfl rfl rfl hp.fifo (fun _ h => h) (Or.inl (by simp [hempty])) id
      (by simp) (fun _ => ⟨hstop, hempty⟩)
  | @took k task tasks hk htasks =>
    refine hp.worker hk (by simp) rfl rfl rfl ?_ ?_ (Or.inr ⟨by simp, ?_⟩) ?_ (by simp) (by simp)
    · rw [← hp.fifo, htasks, List.append_assoc, List.singleton_append]
    · intro others h
      refine List.Perm.trans ?_ (h.append_right [task])
      have hswap : ([task] ++ others).Perm (others ++ [task]) := List.perm_append_comm
      simp only [Worker.task?, Option.toList, List.nil_append, List.append_assoc]
      exact hswap.append_left _
    · rw [htasks, List.length_cons]
      simp only [Worker.isReady, Bool.toNat_false, Bool.toNat_true]
      omega
    · intro hnil
      rw [htasks] at hnil
      cases hnil
  | finished hk =>
    refine hp.worker hk (by simp) rfl rfl rfl hp.fifo ?_ (Or.inr ⟨by simp, ?_⟩) id (by simp)
      (by simp)
    · intro others h
      rw [List.append_assoc]
      exact h
    · simp [Worker.isReady]
  | destroyed hnot =>
    refine ⟨hp.fifo, hp.kept, hp.covered, ?_, by simp, by simp, by simp⟩
    intro hmem
    exact ⟨rfl, (hp.drained hmem).2⟩
  | notifiedAll hstopping =>
    have hstop : p.stop = true := hp.stopped.mpr (by simp [hstopping])
    have hnone : .waiting ∉ p.workers.map Worker.woken := by
      intro hmem
      obtain ⟨w, -, hw⟩ := List.mem_map.mp hmem
      exact woken_ne_waiting w hw
    refine ⟨hp.fifo, ?_, fun hmem => absurd hmem hnone, ?_, ?_, fun _ _ => hnone, ?_⟩
    · have hsame : (p.workers.map Worker.woken).filterMap Worker.task? = p.running := by
        rw [List.filterMap_map, running]
        exact List.filterMap_congr fun w _ => task?_woken w
      rw [running, hsame]
      exact hp.kept
    · intro hmem
      obtain ⟨w, hw, hexited⟩ := List.mem_map.mp hmem
      exact hp.drained (woken_eq_exited.mp hexited ▸ hw)
    · simp [hstop]
    · intro joined hj
      cases hj
      exact ⟨Nat.zero_le _, fun i hi => absurd hi (Nat.not_lt_zero i)⟩
  | @joined joined hjoining hexited =>
    obtain ⟨hle, hall⟩ := hp.joined joined hjoining
    have hstop : p.stop = true := hp.stopped.mpr (by simp [hjoining])
    refine ⟨hp.fifo, hp.kept, hp.covered, hp.drained, by simp [hstop],
      fun _ _ => hp.awake joined hjoining, ?_⟩
    intro j hj
    cases hj
    refine ⟨(List.getElem?_eq_some_iff.mp hexited).1, fun i hi => ?_⟩
    rcases Nat.lt_succ_iff_lt_or_eq.mp hi with hlt | rfl
    · exact hall i hlt
    · exact hexited

theorem sound_run {n : Nat} {p : ThreadPool τ} (hr : Run step (create n) anyStep p) : p.Sound := by
  induction hr with
  | init => exact create_sound n
  | step _ _ hs ih => exact sound_move (pool_move hs) ih

theorem length_workers_move {p p' : ThreadPool τ} {a : PoolAction τ} (hm : PoolMove p a p') :
    p'.workers.length = p.workers.length := by
  cases hm <;> simp

theorem length_workers_run {n : Nat} {p : ThreadPool τ} (hr : Run step (create n) anyStep p) :
    p.workers.length = n := by
  induction hr with
  | init => simp [create]
  | step _ _ hs ih => exact (length_workers_move (pool_move hs)).trans ih

theorem Sound.destroyed {p : ThreadPool τ} (hp : p.Sound) (hd : p.Destroyed) :
    ∀ w ∈ p.workers, w = .exited := by
  intro w hw
  obtain ⟨i, hi, rfl⟩ := List.mem_iff_getElem.mp hw
  have hexited := (hp.joined _ hd).2 i hi
  rw [List.getElem?_eq_getElem hi] at hexited
  exact Option.some.inj hexited

/-- With no task queued and no worker at work, everything that was accepted has returned. -/
theorem Sound.all_finished {p : ThreadPool τ} (hp : p.Sound) (hempty : p.tasks = [])
    (hidle : ∀ w ∈ p.workers, w.task? = none) : p.finished.Perm p.accepted := by
  have hrunning : p.running = [] := List.filterMap_eq_nil_iff.mpr hidle
  have hkept := hp.kept
  rw [hrunning, List.append_nil] at hkept
  rw [← hp.fifo, hempty, List.append_nil]
  exact hkept

end ThreadPool

/-! ## Each task once -/

/-- **Every accepted task is taken by one worker, in the order in which it was submitted, and runs
to its end**: what was started is the beginning of what was accepted, what has returned or is in
execution is what was started, at most `n` tasks are in execution, and when the destructor returns
every accepted task has returned and every worker is gone. -/
theorem pool_runs_each_once {n : Nat} (hn : 0 < n) {p : ThreadPool τ}
    (hr : Run step (create n) anyStep p) :
    p.started ++ p.tasks = p.accepted ∧ (p.finished ++ p.running).Perm p.started ∧
      p.running.length ≤ n ∧
      (p.Destroyed → p.finished.Perm p.accepted ∧ ∀ w ∈ p.workers, w = .exited) := by
  have hp := sound_run hr
  have hlen := length_workers_run hr
  refine ⟨hp.fifo, hp.kept, ?_, fun hd => ⟨?_, hp.destroyed hd⟩⟩
  · rw [← hlen]
    exact List.length_filterMap_le _ _
  · have hall := hp.destroyed hd
    obtain ⟨w, hw⟩ := List.exists_mem_of_length_pos (by omega : 0 < p.workers.length)
    have hgone : .exited ∈ p.workers := hall w hw ▸ hw
    refine hp.all_finished (hp.drained hgone).2 fun v hv => ?_
    rw [hall v hv]
    rfl

/-- Two workers, three tasks, and a destructor that returns. -/
theorem pool_runs_each_once_twoWorkers :
    ∃ p : ThreadPool Nat, Run step (create 2) anyStep p ∧
      p.accepted = [1, 2, 3] ∧ p.Destroyed ∧ p.finished.Perm p.accepted := by
  obtain ⟨p, hr, hp⟩ : ∃ p : ThreadPool Nat, Run step (create 2) anyStep p ∧
      decide (p.accepted = [1, 2, 3] ∧ p.Destroyed) = true :=
    exists_run
      [.lock 0, .lock 1, .submit 1, .submit 2, .notifyOne (some 1), .lock 1, .submit 3, .finish 1,
        .lock 1, .notifyOne (some 0), .destroy, .submit 4, .lock 0, .notifyOne none, .finish 0,
        .notifyAll, .lock 0, .finish 1, .lock 1, .join, .join] (by decide +kernel)
  obtain ⟨haccepted, hd⟩ := of_decide_eq_true hp
  exact ⟨p, hr, haccepted, hd, ((pool_runs_each_once (by decide) hr).2.2.2 hd).1⟩

/-! ## No lost wakeup -/

/-- The steps that the pool takes by itself: not a call from outside, and not a wakeup that nobody
asked for. -/
def PoolAction.own : PoolAction τ → Bool
  | .submit _ => false
  | .wake _ => false
  | .destroy => false
  | _ => true

/-- No step of its own is possible. -/
def ThreadPool.Stalled (p : ThreadPool τ) : Prop := ∀ a : PoolAction τ, a.own = true → p.step a = none

namespace ThreadPool

theorem Stalled.worker {p : ThreadPool τ} (hs : p.Stalled) {w : Worker τ} (hw : w ∈ p.workers) :
    w = .waiting ∨ w = .exited := by
  obtain ⟨k, hk⟩ := List.mem_iff_getElem?.mp hw
  cases w with
  | ready => simpa [step, hk] using hs (.lock k) rfl
  | waiting => exact Or.inl rfl
  | running task => simpa [step, hk] using hs (.finish k) rfl
  | exited => exact Or.inr rfl

theorem Stalled.notifying {p : ThreadPool τ} (hs : p.Stalled) : p.notifying = 0 := by
  by_contra hne
  have hpos : 0 < p.notifying := Nat.pos_of_ne_zero hne
  cases hany : p.workers.any Worker.isWaiting with
  | false => simpa [step, hpos, hany] using hs (.notifyOne none) rfl
  | true =>
    obtain ⟨w, hw, hwait⟩ := List.any_eq_true.mp hany
    obtain ⟨k, hk⟩ := List.mem_iff_getElem?.mp hw
    cases w with
    | waiting => simpa [step, hpos, hk] using hs (.notifyOne (some k)) rfl
    | ready => cases hwait
    | running task => cases hwait
    | exited => cases hwait

theorem Stalled.countP_ready {p : ThreadPool τ} (hs : p.Stalled) :
    p.workers.countP Worker.isReady = 0 := by
  refine List.countP_eq_zero.mpr fun w hw => ?_
  rcases hs.worker hw with rfl | rfl <;> simp [Worker.isReady]

/-- A pool that does not move has nothing left to do. -/
theorem Sound.stalled {p : ThreadPool τ} (hp : p.Sound) (hworkers : 0 < p.workers.length)
    (hs : p.Stalled) : p.finished.Perm p.accepted ∧ (p.stop = true → p.Destroyed) := by
  have hempty : p.tasks = [] := by
    obtain ⟨w, hw⟩ := List.exists_mem_of_length_pos hworkers
    rcases hs.worker hw with rfl | rfl
    · have hle := hp.covered hw
      rw [hs.countP_ready, hs.notifying] at hle
      exact List.eq_nil_of_length_eq_zero (Nat.le_zero.mp hle)
    · exact (hp.drained hw).2
  refine ⟨hp.all_finished hempty fun w hw => ?_, fun hstop => ?_⟩
  · rcases hs.worker hw with rfl | rfl <;> rfl
  · cases hteardown : p.teardown with
    | notCalled => exact absurd hteardown (hp.stopped.mp hstop)
    | stopping => simpa [step, hteardown] using hs .notifyAll rfl
    | joining joined =>
      have hle := (hp.joined joined hteardown).1
      rcases Nat.lt_or_eq_of_le hle with hlt | heq
      · have hexited : p.workers[joined] = .exited := by
          rcases hs.worker (List.getElem_mem hlt) with h | h
          · exact absurd (h ▸ List.getElem_mem hlt) (hp.awake joined hteardown)
          · exact h
        have hnext : p.workers[joined]? = some .exited := by
          rw [List.getElem?_eq_getElem hlt, hexited]
        simpa [step, hteardown, hnext] using hs .join rfl
      · rw [Destroyed, hteardown, heq]

end ThreadPool

/-- **No wakeup is lost**, although `Submit` and the destructor notify after they have released the
lock: while a worker sleeps, there is a ready worker or a notification to come for every queued
task.  So a pool that can only wait for its callers has executed every accepted task, and if its
destructor was called, it has returned. -/
theorem pool_never_stalls {n : Nat} (hn : 0 < n) {p : ThreadPool τ}
    (hr : Run step (create n) anyStep p) :
    (.waiting ∈ p.workers → p.tasks.length ≤ p.workers.countP Worker.isReady + p.notifying) ∧
      (p.Stalled → p.finished.Perm p.accepted ∧ (p.stop = true → p.Destroyed)) := by
  have hp := sound_run hr
  exact ⟨hp.covered, hp.stalled (by rw [length_workers_run hr]; exact hn)⟩

/-- Both workers fall asleep and two tasks come in; while one worker executes the first, the second
notification is still to come. -/
theorem pool_never_stalls_twoWorkers :
    ∃ p : ThreadPool Nat, Run step (create 2) anyStep p ∧ .waiting ∈ p.workers ∧
      p.tasks = [2] ∧ p.tasks.length ≤ p.workers.countP Worker.isReady + p.notifying := by
  obtain ⟨p, hr, hp⟩ : ∃ p : ThreadPool Nat, Run step (create 2) anyStep p ∧
      decide (.waiting ∈ p.workers ∧ p.tasks = [2]) = true :=
    exists_run [.lock 0, .lock 1, .submit 1, .submit 2, .notifyOne (some 1), .lock 1]
      (by decide +kernel)
  obtain ⟨hmem, htasks⟩ := of_decide_eq_true hp
  exact ⟨p, hr, hmem, htasks, (pool_never_stalls (by decide) hr).1 hmem⟩

/-! ## Shutdown -/

def PoolAction.isSubmit : PoolAction τ → Bool
  | .submit _ => true
  | _ => false

/-- A step that is not a call of `Submit`. -/
def notSubmit (_ : ThreadPool τ) (a : PoolAction τ) : Prop := a.isSubmit = false

instance (p : ThreadPool τ) (a : PoolAction τ) : Decidable (notSubmit p a) :=
  inferInstanceAs (Decidable (_ = _))

namespace Worker

/-- How many steps a worker has before it, once `stop_` is set and no task is queued. -/
def weight : Worker τ → Nat
  | ready => 1
  | waiting => 2
  | running _ => 2
  | exited => 0

theorem weight_le (w : Worker τ) : w.weight ≤ 2 := by
  cases w <;> simp [weight]

theorem weight_woken_le (w : Worker τ) : w.woken.weight ≤ w.weight := by
  cases w <;> simp [weight, woken]

def totalWeight : List (Worker τ) → Nat
  | [] => 0
  | w :: workers => w.weight + totalWeight workers

theorem totalWeight_perm {workers workers' : List (Worker τ)} (h : workers.Perm workers') :
    totalWeight workers = totalWeight workers' := by
  induction h with
  | nil => rfl
  | cons w _ ih => simp only [totalWeight, ih]
  | swap v w workers =>
    simp only [totalWeight]
    omega
  | trans _ _ ih₁ ih₂ => exact ih₁.trans ih₂

theorem totalWeight_le (workers : List (Worker τ)) :
    totalWeight workers ≤ 2 * workers.length := by
  induction workers with
  | nil => exact Nat.le_refl 0
  | cons w workers ih =>
    have hw := w.weight_le
    simp only [totalWeight, List.length_cons]
    omega

theorem totalWeight_woken_le (workers : List (Worker τ)) :
    totalWeight (workers.map woken) ≤ totalWeight workers := by
  induction workers with
  | nil => exact Nat.le_refl 0
  | cons w workers ih =>
    have hw := w.weight_woken_le
    simp only [totalWeight, List.map_cons]
    omega

end Worker

namespace ThreadPool

/-- How many joins are left. -/
def joins (p : ThreadPool τ) : Nat :=
  match p.teardown with
  | .notCalled => p.workers.length + 2
  | .stopping => p.workers.length + 1
  | .joining joined => p.workers.length - joined

/-- A bound for the steps that are left once `stop_` is set. -/
def remaining (p : ThreadPool τ) : Nat :=
  3 * p.tasks.length + Worker.totalWeight p.workers + p.notifying + p.joins

theorem totalWeight_set {p : ThreadPool τ} {k : Nat} {u : Worker τ}
    (hk : p.workers[k]? = some u) :
    ∃ c, Worker.totalWeight p.workers = u.weight + c ∧
      ∀ t : Worker τ, Worker.totalWeight (p.workers.set k t) = t.weight + c := by
  obtain ⟨others, hbefore, hafter⟩ := exists_others hk
  exact ⟨Worker.totalWeight others, Worker.totalWeight_perm hbefore,
    fun t => Worker.totalWeight_perm (hafter t)⟩

/-- **Every step after `stop_` is set lowers the bound.** -/
theorem remaining_lt {p p' : ThreadPool τ} {a : PoolAction τ} (hm : PoolMove p a p')
    (hstop : p.stop = true) (ha : notSubmit p a) :
    p'.stop = true ∧ p'.accepted = p.accepted ∧ p'.remaining < p.remaining := by
  cases hm with
  | dropped _ => cases ha
  | queued _ => cases ha
  | unheard hn _ =>
    refine ⟨hstop, rfl, ?_⟩
    simp only [remaining, joins]
    omega
  | notified hk hn =>
    obtain ⟨c, hbefore, hafter⟩ := totalWeight_set hk
    refine ⟨hstop, rfl, ?_⟩
    simp only [remaining, joins, hbefore, hafter, Worker.weight, List.length_set]
    omega
  | woke hk =>
    obtain ⟨c, hbefore, hafter⟩ := totalWeight_set hk
    refine ⟨hstop, rfl, ?_⟩
    simp only [remaining, joins, hbefore, hafter, Worker.weight, List.length_set]
    omega
  | slept _ _ hrun => exact absurd (hstop.symm.trans hrun) (by decide)
  | exited hk _ _ =>
    obtain ⟨c, hbefore, hafter⟩ := totalWeight_set hk
    refine ⟨hstop, rfl, ?_⟩
    simp only [remaining, joins, hbefore, hafter, Worker.weight, List.length_set]
    omega
  | took hk htasks =>
    obtain ⟨c, hbefore, hafter⟩ := totalWeight_set hk
    refine ⟨hstop, rfl, ?_⟩
    simp only [remaining, joins, htasks, hbefore, hafter, Worker.weight, List.length_set,
      List.length_cons]
    omega
  | finished hk =>
    obtain ⟨c, hbefore, hafter⟩ := totalWeight_set hk
    refine ⟨hstop, rfl, ?_⟩
    simp only [remaining, joins, hbefore, hafter, Worker.weight, List.length_set]
    omega
  | destroyed hnot =>
    refine ⟨rfl, rfl, ?_⟩
    simp only [remaining, joins, hnot]
    omega
  | notifiedAll hstopping =>
    refine ⟨hstop, rfl, ?_⟩
    have hle := Worker.totalWeight_woken_le p.workers
    simp only [remaining, joins, hstopping, List.length_map]
    omega
  | joined hjoining hexited =>
    have hlt := (List.getElem?_eq_some_iff.mp hexited).1
    refine ⟨hstop, rfl, ?_⟩
    simp only [remaining, joins, hjoining]
    omega

theorem remaining_le {p : ThreadPool τ} (hp : p.Sound) (hstop : p.stop = true) :
    p.remaining ≤ 3 * p.tasks.length + 3 * p.workers.length + p.notifying + 1 := by
  have hweights := Worker.totalWeight_le p.workers
  have hjoins : p.joins ≤ p.workers.length + 1 := by
    unfold joins
    cases hteardown : p.teardown with
    | notCalled => exact absurd hteardown (hp.stopped.mp hstop)
    | stopping => exact Nat.le_refl _
    | joining joined =>
      simp only
      omega
  unfold remaining
  omega

end ThreadPool

/-- **The destructor returns.**  Once `stop_` is set, every sequence of steps is bounded by the
number of tasks, workers and notifications that are left (a call of `Submit` changes nothing), as
long as the tasks return; and when no step of the pool is left, the destructor has returned and
every accepted task has been executed. -/
theorem shutdown_completes {n : Nat} (hn : 0 < n) {p p' : ThreadPool τ}
    (hr : Run step (create n) anyStep p) (hstop : p.stop = true) {as : List (PoolAction τ)}
    (hexec : exec step notSubmit p as = some p') :
    as.length ≤ 3 * p.tasks.length + 3 * n + p.notifying + 1 ∧
      (p'.Stalled → p'.Destroyed ∧ p'.finished.Perm p.accepted) := by
  have hp := sound_run hr
  have hlen := length_workers_run hr
  obtain ⟨⟨hp', hstop', hlen', haccepted⟩, hle⟩ := countP_le_of_exec
    (I := fun q : ThreadPool τ =>
      q.Sound ∧ q.stop = true ∧ q.workers.length = n ∧ q.accepted = p.accepted)
    (μ := remaining) (p := fun _ => true)
    (by
      rintro q a q' ⟨hq, hqstop, hqlen, hqaccepted⟩ ha hs
      have hm := pool_move hs
      obtain ⟨hstop', haccepted, hlt⟩ := remaining_lt hm hqstop ha
      exact ⟨⟨sound_move hm hq, hstop', length_workers_move hm ▸ hqlen,
        haccepted.trans hqaccepted⟩, hlt⟩)
    as ⟨hp, hstop, hlen, rfl⟩ hexec
  have hbound := remaining_le hp hstop
  rw [hlen] at hbound
  rw [List.countP_true] at hle
  refine ⟨by omega, fun hstalled => ?_⟩
  obtain ⟨hfinished, hdestroyed⟩ := hp'.stalled (by omega) hstalled
  exact ⟨hdestroyed hstop', haccepted ▸ hfinished⟩

/-- A destructor called while both workers sleep and one task is queued. -/
theorem shutdown_completes_twoWorkers :
    ∃ p p' : ThreadPool Nat, Run step (create 2) anyStep p ∧ p.stop = true ∧
      exec step notSubmit p
        [.notifyOne (some 0), .lock 0, .notifyAll, .lock 1, .finish 0, .lock 0, .join, .join] =
          some p' ∧
      p'.Destroyed ∧ 8 ≤ 3 * p.tasks.length + 3 * 2 + p.notifying + 1 := by
  obtain ⟨p, hr, hp⟩ : ∃ p : ThreadPool Nat, Run step (create 2) anyStep p ∧
      decide (p.stop = true ∧ (exec step notSubmit p
        [.notifyOne (some 0), .lock 0, .notifyAll, .lock 1, .finish 0, .lock 0, .join, .join]).any
          (fun q => decide q.Destroyed) = true) = true :=
    exists_run [.lock 0, .lock 1, .submit 1, .destroy] (by decide +kernel)
  obtain ⟨hstop, hany⟩ := of_decide_eq_true hp
  obtain ⟨p', hexec, hd⟩ := exists_of_any hany
  exact ⟨p, p', hr, hstop, hexec, of_decide_eq_true hd,
    (shutdown_completes (by decide) hr hstop hexec).1⟩

end NeuralKV
