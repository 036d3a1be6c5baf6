import AsyncLib.Lib.Count
import AsyncLib.Lib.System

/-!
# The dynamic threads of `BlockingWorkQueue`

`async/concurrent/blocking_work_queue.h`: `RunBlockingTask`, `WaitNextTask` and the part of `Quiesce`
that stops the dynamic threads, at the granularity of `mMutex`. Each critical section is one step; a
thread that waits on a condition variable has released the mutex.

* `Pc`: where a dynamic thread is. `St`: the fields under the mutex, the threads, and the record of
  the tasks: submitted in order, accepted or given back, called and returned.
* `runBlockingTask`, `takeTask`, `exitThread`: the critical sections. `step`, `sys`: all runs. A wake-up
  may come at any time and with or without a timeout, and any thread may call `RunBlockingTask` or
  `Quiesce` at any time.
* `Inv`: the counters count threads, there is an idle thread for each handed over task, and each
  accepted task is in one place.
* `dynamic_threads`: what follows for every run.

The counter of pending tasks that `RunBlockingTask` may wrap a task with, and the queue of the static
threads, are not in this module.
-/

namespace AsyncLib

namespace BlockingWorkQueue

open Sys

/-! ## The code -/

/-- Where a dynamic thread is. -/
inductive Pc where
  /-- Before the call of its task. -/
  | call (task : Nat)
  /-- In its task. -/
  | task (task : Nat)
  /-- The task has returned; the thread is going to lock `mMutex`. -/
  | finished
  /-- It waits on `mWakeDoWorkCV`. -/
  | idle
  | exited
  deriving DecidableEq, Repr

namespace Pc

/-- The thread is still running. -/
def active (pc : Pc) : Bool := decide (pc ≠ .exited)

/-- The thread waits for a task. -/
def isIdle (pc : Pc) : Bool := decide (pc = .idle)

/-- The thread is about to call the task `k`. -/
def calls (k : Nat) (pc : Pc) : Bool := decide (pc = .call k)

/-- The thread executes the task `k`. -/
def executes (k : Nat) (pc : Pc) : Bool := decide (pc = .task k)

end Pc

/-- `DynamicThread`: a thread, by its position in the order of starts, and its flag. -/
structure DynamicThread where
  thread : Nat
  active : Bool
  deriving DecidableEq, Repr

/-- The dynamic threads, the counters under the mutex, and what became of the tasks. -/
structure St where
  mNumDynamicThreads : Nat
  mNumIdleDynamicThreads : Nat
  mIdleTaskQueue : List Nat
  mDynamicThreads : List DynamicThread
  mStopWaiting : Bool
  /-- All dynamic threads that were started. -/
  threads : List Pc
  /-- The number of calls of `Quiesce` that wait. -/
  quiescing : Nat
  submitted : Nat
  accepted : List Nat
  refused : List Nat
  called : List Nat
  returned : List Nat
  deriving DecidableEq, Repr

/-- `RunBlockingTask`. -/
def runBlockingTask (mMaxNumDynamicThreads : Nat) (s : St) (task : Nat) : St × Option Nat :=
  if s.mIdleTaskQueue.length < s.mNumIdleDynamicThreads then
    ({ s with mIdleTaskQueue := s.mIdleTaskQueue ++ [task] }, none)
  else
    let entries := s.mDynamicThreads.filter fun thread => thread.active
    if s.mNumDynamicThreads < mMaxNumDynamicThreads then
      ({ s with
        mDynamicThreads := entries ++ [⟨s.threads.length, true⟩]
        threads := s.threads ++ [.call task]
        mNumDynamicThreads := s.mNumDynamicThreads + 1 }, none)
    else ({ s with mDynamicThreads := entries }, some task)

/-- The end of `do_work`. -/
def exitThread (s : St) (t : Nat) : St :=
  { s with
    threads := s.threads.set t .exited
    mDynamicThreads := s.mDynamicThreads.map fun thread =>
      if thread.thread = t then { thread with active := false } else thread
    mNumDynamicThreads := s.mNumDynamicThreads - 1 }

/-- `WaitNextTask` after its wait, and what `do_work` does with its answer. -/
def takeTask (s : St) (t : Nat) : St :=
  match s.mIdleTaskQueue with
  | task :: rest =>
    { s with
      mNumIdleDynamicThreads := s.mNumIdleDynamicThreads - 1
      mIdleTaskQueue := rest
      threads := s.threads.set t (.call task) }
  | [] => exitThread { s with mNumIdleDynamicThreads := s.mNumIdleDynamicThreads - 1 } t

/-- The condition of `mWakeDoWorkCV.wait_until`. -/
def awake (s : St) : Bool := !s.mIdleTaskQueue.isEmpty || s.mStopWaiting

/-- Each section under the mutex is one step, and so is the execution of a task. -/
inductive Label where
  | runBlockingTask
  /-- The thread `t` calls its task. -/
  | call (t : Nat)
  /-- The task of thread `t` returns. -/
  | returnTask (t : Nat)
  /-- The thread `t` locks the mutex and enters `WaitNextTask`. -/
  | waitNextTask (t : Nat)
  /-- The thread `t` wakes up, or its time is over. -/
  | wake (t : Nat) (timeout : Bool)
  /-- `Quiesce` up to its wait. -/
  | quiesce
  /-- `Quiesce` after its wait. -/
  | quiesced
  deriving DecidableEq, Repr

/-- A step of a caller or of a dynamic thread; `none` if it is not enabled. -/
def step (mMaxNumDynamicThreads : Nat) (s : St) : Label → Option St
  | .runBlockingTask =>
    let p := runBlockingTask mMaxNumDynamicThreads s s.submitted
    some { p.1 with
      submitted := s.submitted + 1
      accepted := if p.2 = none then s.submitted :: s.accepted else s.accepted
      refused := p.2.toList ++ s.refused }
  | .call t =>
    match s.threads[t]? with
    | some (.call task) =>
      some { s with threads := s.threads.set t (.task task), called := task :: s.called }
    | _ => none
  | .returnTask t =>
    match s.threads[t]? with
    | some (.task task) =>
      some { s with threads := s.threads.set t .finished, returned := task :: s.returned }
    | _ => none
  | .waitNextTask t =>
    match s.threads[t]? with
    | some .finished =>
      let s := { s with mNumIdleDynamicThreads := s.mNumIdleDynamicThreads + 1 }
      if awake s then some (takeTask s t) else some { s with threads := s.threads.set t .idle }
    | _ => none
  | .wake t timeout =>
    match s.threads[t]? with
    | some .idle => if awake s || timeout then some (takeTask s t) else some s
    | _ => none
  | .quiesce => some { s with mStopWaiting := true, quiescing := s.quiescing + 1 }
  | .quiesced =>
    if s.quiescing ≠ 0 ∧ s.mNumDynamicThreads = 0 then
      some { s with mStopWaiting := false, quiescing := s.quiescing - 1 }
    else none

/-- No thread was started. -/
def init : St where
  mNumDynamicThreads := 0
  mNumIdleDynamicThreads := 0
  mIdleTaskQueue := []
  mDynamicThreads := []
  mStopWaiting := false
  threads := []
  quiescing := 0
  submitted := 0
  accepted := []
  refused := []
  called := []
  returned := []

/-- All runs with at most `mMaxNumDynamicThreads` threads. -/
def sys (mMaxNumDynamicThreads : Nat) : Sys St Label := Sys.ofFun init (step mMaxNumDynamicThreads)

/-! ## The invariant -/

/-- The counters are those of the threads, and every accepted task was called once or is going to
be. -/
structure Inv (max : Nat) (s : St) : Prop where
  dynamic : s.mNumDynamicThreads = s.threads.countP Pc.active
  idle : s.mNumIdleDynamicThreads = s.threads.countP Pc.isIdle
  queue : s.mIdleTaskQueue.length ≤ s.mNumIdleDynamicThreads
  max : s.mNumDynamicThreads ≤ max
  /-- An accepted task was called, or is going to be. -/
  accepted : ∀ k, s.accepted.count k =
    s.called.count k + s.threads.countP (Pc.calls k) + s.mIdleTaskQueue.count k
  called : ∀ k, s.called.count k = s.returned.count k + s.threads.countP (Pc.executes k)
  fresh : ∀ k, s.accepted.count k + s.refused.count k = if k < s.submitted then 1 else 0
  /-- The entry of a thread is not removed before it has exited. -/
  entries : ∀ t pc, s.threads[t]? = some pc → pc ≠ .exited → ⟨t, true⟩ ∈ s.mDynamicThreads

variable {max : Nat} {s s' : St} {l : Label}

theorem inv_init : Inv max init where
  dynamic := rfl
  idle := rfl
  queue := Nat.le_refl 0
  max := Nat.zero_le _
  accepted _ := rfl
  called _ := rfl
  fresh k := by simp [init]
  entries t pc h := by cases h

theorem Inv.idle_le (h : Inv max s) : s.mNumIdleDynamicThreads ≤ s.mNumDynamicThreads := by
  rw [h.idle, h.dynamic]
  refine List.countP_mono_left fun pc _ hpc => ?_
  rw [of_decide_eq_true hpc]
  rfl

/-- The entry of another thread stays. -/
theorem Inv.entries_set (h : Inv max s) {t : Nat} {y : Pc} (ht : ⟨t, true⟩ ∈ s.mDynamicThreads)
    (u : Nat) (pc : Pc) (hu : (s.threads.set t y)[u]? = some pc) (hpc : pc ≠ .exited) :
    ⟨u, true⟩ ∈ s.mDynamicThreads := by
  by_cases hut : u = t
  · exact hut ▸ ht
  · rw [List.getElem?_set_ne (Ne.symm hut)] at hu
    exact h.entries u pc hu hpc

theorem count_cons_toNat (x k : Nat) (l : List Nat) :
    (x :: l).count k = l.count k + (decide (x = k)).toNat := by
  rw [List.count_cons]
  by_cases h : x = k
  · simp [h]
  · simp [h]

/-- The counts of threads after the thread `t` has moved from `x` to `y`. -/
theorem counts_set {x : Pc} {t : Nat} (y : Pc) (ht : s.threads[t]? = some x) (k : Nat) :
    (s.threads.set t y).countP Pc.active + x.active.toNat =
      s.threads.countP Pc.active + y.active.toNat ∧
    (s.threads.set t y).countP Pc.isIdle + x.isIdle.toNat =
      s.threads.countP Pc.isIdle + y.isIdle.toNat ∧
    (s.threads.set t y).countP (Pc.calls k) + (x.calls k).toNat =
      s.threads.countP (Pc.calls k) + (y.calls k).toNat ∧
    (s.threads.set t y).countP (Pc.executes k) + (x.executes k).toNat =
      s.threads.countP (Pc.executes k) + (y.executes k).toNat :=
  ⟨countP_set_add ht, countP_set_add ht, countP_set_add ht, countP_set_add ht⟩

/-- The thread `t` calls its task. -/
theorem Inv.call (h : Inv max s) {t task : Nat} (ht : s.threads[t]? = some (.call task)) :
    Inv max { s with threads := s.threads.set t (.task task), called := task :: s.called } := by
  have hset := counts_set (.task task) ht
  simp only [Pc.active, Pc.isIdle, Pc.calls, Pc.executes, ne_eq, reduceCtorEq, not_false_eq_true,
    decide_true, decide_false, Bool.toNat_true, Bool.toNat_false, Pc.call.injEq, Pc.task.injEq]
    at hset
  refine ⟨?_, ?_, h.queue, h.max, fun k => ?_, fun k => ?_, h.fresh,
    h.entries_set (h.entries t _ ht (by simp))⟩
  · have := (hset 0).1
    have := h.dynamic
    simp only
    omega
  · have := (hset 0).2.1
    have := h.idle
    simp only
    omega
  · have := (hset k).2.2.1
    have := h.accepted k
    simp only [count_cons_toNat]
    omega
  · have := (hset k).2.2.2
    have := h.called k
    simp only [count_cons_toNat]
    omega

/-- The task of the thread `t` returns. -/
theorem Inv.returnTask (h : Inv max s) {t task : Nat} (ht : s.threads[t]? = some (.task task)) :
    Inv max { s with threads := s.threads.set t .finished, returned := task :: s.returned } := by
  have hset := counts_set .finished ht
  simp only [Pc.active, Pc.isIdle, Pc.calls, Pc.executes, ne_eq, reduceCtorEq, not_false_eq_true,
    decide_true, decide_false, Bool.toNat_true, Bool.toNat_false, Pc.task.injEq] at hset
  refine ⟨?_, ?_, h.queue, h.max, fun k => ?_, fun k => ?_, h.fresh,
    h.entries_set (h.entries t _ ht (by simp))⟩
  · have := (hset 0).1
    have := h.dynamic
    simp only
    omega
  · have := (hset 0).2.1
    have := h.idle
    simp only
    omega
  · have := (hset k).2.2.1
    have := h.accepted k
    simp only
    omega
  · have := (hset k).2.2.2
    have := h.called k
    simp only [count_cons_toNat]
    omega

/-- The thread `t` is counted as idle. -/
theorem Inv.enter (h : Inv max s) {t : Nat} (ht : s.threads[t]? = some .finished) :
    Inv max { s with
      mNumIdleDynamicThreads := s.mNumIdleDynamicThreads + 1, threads := s.threads.set t .idle } := by
  have hset := counts_set .idle ht
  simp only [Pc.active, Pc.isIdle, Pc.calls, Pc.executes, ne_eq, reduceCtorEq, not_false_eq_true,
    decide_true, decide_false, Bool.toNat_true, Bool.toNat_false] at hset
  refine ⟨?_, ?_, Nat.le_succ_of_le h.queue, h.max, fun k => ?_, fun k => ?_, h.fresh,
    h.entries_set (h.entries t _ ht (by simp))⟩
  · have := (hset 0).1
    have := h.dynamic
    simp only
    omega
  · have := (hset 0).2.1
    have := h.idle
    simp only
    omega
  · have := (hset k).2.2.1
    have := h.accepted k
    simp only
    omega
  · have := (hset k).2.2.2
    have := h.called k
    simp only
    omega

/-- An idle thread takes a task, or exits when there is none. -/
theorem Inv.takeTask (h : Inv max s) {t : Nat} (ht : s.threads[t]? = some .idle) :
    Inv max (takeTask s t) := by
  have hq := h.queue
  unfold BlockingWorkQueue.takeTask
  split
  · rename_i task rest hr
    have hset := counts_set (.call task) ht
    simp only [Pc.active, Pc.isIdle, Pc.calls, Pc.executes, ne_eq, reduceCtorEq, not_false_eq_true,
      decide_true, decide_false, Bool.toNat_true, Bool.toNat_false, Pc.call.injEq] at hset
    rw [hr, List.length_cons] at hq
    refine ⟨?_, ?_, ?_, h.max, fun k => ?_, fun k => ?_, h.fresh,
      h.entries_set (h.entries t _ ht (by simp))⟩
    · have := (hset 0).1
      have := h.dynamic
      simp only
      omega
    · have := (hset 0).2.1
      have := h.idle
      simp only
      omega
    · show rest.length ≤ s.mNumIdleDynamicThreads - 1
      omega
    · have := (hset k).2.2.1
      have ha := h.accepted k
      rw [hr, count_cons_toNat] at ha
      simp only
      omega
    · have := (hset k).2.2.2
      have := h.called k
      simp only
      omega
  · rename_i hr
    have hset := counts_set .exited ht
    simp only [Pc.active, Pc.isIdle, Pc.calls, Pc.executes, ne_eq, reduceCtorEq, not_false_eq_true,
      not_true_eq_false, decide_true, decide_false, Bool.toNat_true, Bool.toNat_false] at hset
    unfold exitThread
    refine ⟨?_, ?_, ?_, ?_, fun k => ?_, fun k => ?_, h.fresh, fun u pc hu hpc => ?_⟩
    · have := (hset 0).1
      have := h.dynamic
      simp only
      omega
    · have := (hset 0).2.1
      have := h.idle
      simp only
      omega
    · rw [hr]
      exact Nat.zero_le _
    · exact Nat.le_trans (Nat.sub_le _ _) h.max
    · have := (hset k).2.2.1
      have := h.accepted k
      simp only
      omega
    · have := (hset k).2.2.2
      have := h.called k
      simp only
      omega
    · have hut : u ≠ t := by
        rintro rfl
        rw [List.getElem?_set_self (List.getElem?_eq_some_iff.mp ht).1] at hu
        exact hpc (Option.some.inj hu).symm
      rw [List.getElem?_set_ne hut.symm] at hu
      exact List.mem_map.mpr ⟨⟨u, true⟩, h.entries u pc hu hpc, by rw [if_neg hut]⟩

theorem takeTask_set (t : Nat) (x : Pc) :
    BlockingWorkQueue.takeTask { s with threads := s.threads.set t x } t =
      BlockingWorkQueue.takeTask s t := by
  cases hq : s.mIdleTaskQueue with
  | nil => simp [BlockingWorkQueue.takeTask, hq, exitThread]
  | cons task rest => simp [BlockingWorkQueue.takeTask, hq]

theorem Inv.waitNextTask (h : Inv max s) {t : Nat} (ht : s.threads[t]? = some .finished)
    (hs : step max s (.waitNextTask t) = some s') : Inv max s' := by
  have he := h.enter ht
  have hidle : (s.threads.set t .idle)[t]? = some .idle :=
    List.getElem?_set_self (List.getElem?_eq_some_iff.mp ht).1
  simp only [step, ht] at hs
  split at hs
  · cases hs
    rw [← takeTask_set t .idle]
    exact he.takeTask hidle
  · cases hs
    exact he

/-- A new task is accepted or given back. -/
theorem Inv.runBlockingTask (h : Inv max s) (hs : step max s .runBlockingTask = some s') :
    Inv max s' := by
  have hfresh : ∀ k, s.accepted.count k + s.refused.count k + (decide (s.submitted = k)).toNat =
      if k < s.submitted + 1 then 1 else 0 := by
    intro k
    have := h.fresh k
    by_cases hk : s.submitted = k
    · simp only [hk, Nat.lt_irrefl, if_false, decide_true, Bool.toNat_true, Nat.lt_succ_self, if_true]
        at this ⊢
      omega
    · rw [this]
      simp only [hk, decide_false, Bool.toNat_false]
      split <;> split <;> omega
  have hentries : ∀ t pc, s.threads[t]? = some pc → pc ≠ .exited →
      ⟨t, true⟩ ∈ s.mDynamicThreads.filter fun thread => thread.active := fun t pc ht hpc =>
    List.mem_filter.mpr ⟨h.entries t pc ht hpc, rfl⟩
  cases hs
  unfold BlockingWorkQueue.runBlockingTask
  split
  · rename_i hlt
    refine ⟨h.dynamic, h.idle, ?_, h.max, fun k => ?_, h.called, fun k => ?_, h.entries⟩
    · simp only [List.length_append, List.length_cons, List.length_nil]
      omega
    · have := h.accepted k
      simp only [if_true, count_cons_toNat, List.count_append, List.count_nil]
      omega
    · have := hfresh k
      simp only [if_true, count_cons_toNat, Option.toList_none, List.nil_append]
      omega
  · split
    · rename_i hmax
      refine ⟨?_, ?_, h.queue, ?_, fun k => ?_, fun k => ?_, fun k => ?_, fun t pc ht hpc => ?_⟩
      · have hadd := countP_concat (p := Pc.active) s.threads (.call s.submitted)
        rw [show Pc.active (.call s.submitted) = true from rfl, Bool.toNat_true] at hadd
        have := h.dynamic
        simp only
        omega
      · have hadd := countP_concat (p := Pc.isIdle) s.threads (.call s.submitted)
        rw [show Pc.isIdle (.call s.submitted) = false from rfl, Bool.toNat_false] at hadd
        have := h.idle
        simp only
        omega
      · exact hmax
      · have hadd := countP_concat (p := Pc.calls k) s.threads (.call s.submitted)
        have hcall : Pc.calls k (.call s.submitted) = decide (s.submitted = k) := by
          simp [Pc.calls]
        rw [hcall] at hadd
        have := h.accepted k
        simp only [if_true, count_cons_toNat]
        omega
      · have hadd := countP_concat (p := Pc.executes k) s.threads (.call s.submitted)
        rw [show Pc.executes k (.call s.submitted) = false from rfl, Bool.toNat_false] at hadd
        have := h.called k
        simp only
        omega
      · have := hfresh k
        simp only [if_true, count_cons_toNat, Option.toList_none, List.nil_append]
        omega
      · by_cases hlt : t < s.threads.length
        · rw [List.getElem?_append_left hlt] at ht
          exact List.mem_append_left _ (hentries t pc ht hpc)
        · have hlen := (List.getElem?_eq_some_iff.mp ht).1
          simp only [List.length_append, List.length_cons, List.length_nil] at hlen
          have : t = s.threads.length := by omega
          exact List.mem_append_right _ (by simp [this])
    · refine ⟨h.dynamic, h.idle, h.queue, h.max, h.accepted, h.called, fun k => ?_, hentries⟩
      have := hfresh k
      simp only [reduceCtorEq, if_false, Option.toList_some, List.cons_append, List.nil_append,
        count_cons_toNat]
      omega

theorem Inv.step (h : Inv max s) (hs : step max s l = some s') : Inv max s' := by
  cases l with
  | runBlockingTask => exact h.runBlockingTask hs
  | call t =>
    simp only [BlockingWorkQueue.step] at hs
    split at hs
    · rename_i task ht
      cases hs
      exact h.call ht
    · cases hs
  | returnTask t =>
    simp only [BlockingWorkQueue.step] at hs
    split at hs
    · rename_i task ht
      cases hs
      exact h.returnTask ht
    · cases hs
  | waitNextTask t =>
    have hstep := hs
    simp only [BlockingWorkQueue.step] at hs
    split at hs
    · rename_i ht
      exact h.waitNextTask ht hstep
    · cases hs
  | wake t timeout =>
    simp only [BlockingWorkQueue.step] at hs
    split at hs
    · rename_i ht
      split at hs
      · cases hs
        exact h.takeTask ht
      · cases hs
        exact h
    · cases hs
  | quiesce =>
    cases hs
    exact ⟨h.dynamic, h.idle, h.queue, h.max, h.accepted, h.called, h.fresh, h.entries⟩
  | quiesced =>
    obtain ⟨-, hs⟩ := Option.ite_none_right_eq_some.mp hs
    cases hs
    exact ⟨h.dynamic, h.idle, h.queue, h.max, h.accepted, h.called, h.fresh, h.entries⟩

theorem inv_reach (hs : (sys max).Reach Any s) : Inv max s := by
  refine hs.invariant (I := Inv max) ?_ ?_
  · rintro s rfl
    exact inv_init
  · intro s l s' h _ hn
    exact h.step hn

/-! ## The tasks that are going to be called -/

/-- Without dynamic threads all of them have exited. -/
theorem Inv.exited (h : Inv max s) (h0 : s.mNumDynamicThreads = 0) : ∀ pc ∈ s.threads, pc = .exited := by
  intro pc hpc
  have hd := h.dynamic
  rw [h0] at hd
  have := List.countP_eq_zero.mp hd.symm pc hpc
  simpa [Pc.active] using this

theorem Inv.queue_nil (h : Inv max s) (h0 : s.mNumDynamicThreads = 0) : s.mIdleTaskQueue = [] := by
  have hq := h.queue
  have hi := h.idle_le
  exact List.length_eq_zero_iff.mp (by omega)

/-- The thread is going to call a task that `f` holds of. -/
def Pc.due (f : Nat → Bool) : Pc → Bool
  | .call k => f k
  | _ => false

/-- The number of the tasks with `f` that were accepted and not called. -/
def due (f : Nat → Bool) (s : St) : Nat := s.mIdleTaskQueue.countP f + s.threads.countP (Pc.due f)

theorem due_takeTask (f : Nat → Bool) {t : Nat} {x : Pc} (ht : s.threads[t]? = some x)
    (hx : x.due f = false) : due f (takeTask s t) = due f s := by
  unfold takeTask
  split
  · rename_i task rest hq
    have := countP_set_add (p := Pc.due f) (y := .call task) ht
    simp only [hx, Bool.toNat_false, Nat.add_zero] at this
    simp only [due, hq, List.countP_cons, this, Pc.due]
    cases f task <;> simp +arith
  · rename_i hq
    have := countP_set_add (p := Pc.due f) (y := .exited) ht
    rw [hx, show Pc.due f .exited = false from rfl] at this
    simp only [due, exitThread, hq]
    omega

theorem due_set (f : Nat → Bool) {t : Nat} {x y : Pc} (ht : s.threads[t]? = some x) :
    due f { s with threads := s.threads.set t y } + (x.due f).toNat = due f s + (y.due f).toNat := by
  have := countP_set_add (p := Pc.due f) (y := y) ht
  simp only [due]
  omega

theorem due_runBlockingTask (f : Nat → Bool) (hs : step max s .runBlockingTask = some s') :
    due f s' = due f s +
      if (runBlockingTask max s s.submitted).2 = none then (f s.submitted).toNat else 0 := by
  cases hs
  unfold runBlockingTask
  split
  · simp only [due, if_true, List.countP_append, List.countP_singleton]
    cases f s.submitted <;> simp +arith
  · split
    · simp only [due, if_true, countP_concat, Pc.due]
      omega
    · simp [due]

theorem due_call (f : Nat → Bool) {t k : Nat} (ht : s.threads[t]? = some (.call k))
    (hs : step max s (.call t) = some s') : due f s' + (f k).toNat = due f s := by
  simp only [step, ht] at hs
  cases hs
  exact due_set f (y := .task k) ht

/-- A step of a thread that has called its task, or of `Quiesce`. -/
theorem due_step (f : Nat → Bool) (hrun : l ≠ .runBlockingTask) (hcall : ∀ t, l ≠ .call t)
    (hs : step max s l = some s') : due f s' = due f s := by
  cases l with
  | runBlockingTask => exact absurd rfl hrun
  | call t => exact absurd rfl (hcall t)
  | returnTask t =>
    simp only [step] at hs
    split at hs
    · rename_i ht
      cases hs
      exact due_set f (y := .finished) ht
    · cases hs
  | waitNextTask t =>
    simp only [step] at hs
    split at hs
    · rename_i ht
      split at hs
      · cases hs
        exact due_takeTask f ht rfl
      · cases hs
        exact due_set f (y := .idle) ht
    · cases hs
  | wake t timeout =>
    simp only [step] at hs
    split at hs
    · rename_i ht
      split at hs
      · cases hs
        exact due_takeTask f ht rfl
      · cases hs
        rfl
    · cases hs
  | quiesce =>
    cases hs
    rfl
  | quiesced =>
    obtain ⟨-, hs⟩ := Option.ite_none_right_eq_some.mp hs
    cases hs
    rfl

theorem Inv.lt_submitted (h : Inv max s) {k : Nat} (hk : k ∈ s.mIdleTaskQueue ∨ .call k ∈ s.threads) :
    k < s.submitted := by
  have hpos : 0 < s.mIdleTaskQueue.count k + s.threads.countP (Pc.calls k) := by
    rcases hk with hk | hk
    · exact Nat.add_pos_left (List.count_pos_iff.mpr hk) _
    · exact Nat.add_pos_right _ (List.countP_pos_iff.mpr ⟨_, hk, by simp [Pc.calls]⟩)
  have h1 := h.accepted k
  have h2 := h.fresh k
  split at h2
  · assumption
  · omega

/-- Only the tasks that were submitted are due. -/
theorem Inv.due_congr (h : Inv max s) {f g : Nat → Bool} (hfg : ∀ k < s.submitted, f k = g k) :
    due f s = due g s := by
  refine congrArg₂ (· + ·) (List.countP_congr fun k hk => ?_) (List.countP_congr fun pc hpc => ?_)
  · rw [hfg k (h.lt_submitted (.inl hk))]
  · cases pc with
    | call k => simp only [Pc.due, hfg k (h.lt_submitted (.inr hpc))]
    | task k => rfl
    | finished => rfl
    | idle => rfl
    | exited => rfl

/-- Without dynamic threads no task is due. -/
theorem Inv.due_eq_zero (h : Inv max s) (h0 : s.mNumDynamicThreads = 0) (f : Nat → Bool) :
    due f s = 0 := by
  have hthreads : s.threads.countP (Pc.due f) = 0 := List.countP_eq_zero.mpr fun pc hpc => by
    rw [h.exited h0 pc hpc]
    simp [Pc.due]
  rw [due, h.queue_nil h0, hthreads]
  rfl

/-- A task that is due with `h` is due with `f` or with `g`. -/
theorem due_eq_zero_of {f g h : Nat → Bool} (hf : due f s = 0) (hg : due g s = 0)
    (hfg : ∀ k, h k = true → f k = true ∨ g k = true) : due h s = 0 := by
  obtain ⟨hf1, hf2⟩ := Nat.add_eq_zero_iff.mp hf
  obtain ⟨hg1, hg2⟩ := Nat.add_eq_zero_iff.mp hg
  refine Nat.add_eq_zero_iff.mpr ⟨List.countP_eq_zero.mpr fun k hk hh => ?_,
    List.countP_eq_zero.mpr fun pc hpc hh => ?_⟩
  · rcases hfg k hh with hk' | hk'
    · exact List.countP_eq_zero.mp hf1 k hk hk'
    · exact List.countP_eq_zero.mp hg1 k hk hk'
  · cases pc with
    | call k =>
      rcases hfg k hh with hk' | hk'
      · exact List.countP_eq_zero.mp hf2 _ hpc hk'
      · exact List.countP_eq_zero.mp hg2 _ hpc hk'
    | task k | finished | idle | exited => cases hh

/-- A thread stays in its task until the task returns. -/
theorem task_step {t k : Nat} (ht : s.threads[t]? = some (.task k)) (hl : l ≠ .returnTask t)
    (hs : step max s l = some s') : s'.threads[t]? = some (.task k) := by
  have hset : ∀ {u : Nat} {x y : Pc}, s.threads[u]? = some x → x ≠ .task k ∨ t ≠ u →
      (s.threads.set u y)[t]? = some (.task k) := by
    intro u x y hu hx
    have htu : u ≠ t := by
      rintro rfl
      rw [ht] at hu
      rcases hx with hx | hx
      · exact hx (Option.some.inj hu).symm
      · exact hx rfl
    rw [List.getElem?_set_ne htu, ht]
  have htake : ∀ {u : Nat} {x : Pc} {w : St}, w.threads = s.threads → s.threads[u]? = some x →
      x ≠ .task k → (takeTask w u).threads[t]? = some (.task k) := by
    intro u x w hw hu hx
    unfold takeTask
    split
    · simp only [hw]
      exact hset hu (.inl hx)
    · simp only [exitThread, hw]
      exact hset hu (.inl hx)
  cases l with
  | runBlockingTask =>
    cases hs
    have hlt := (List.getElem?_eq_some_iff.mp ht).1
    unfold runBlockingTask
    split
    · exact ht
    · split
      · simp only [List.getElem?_append_left hlt, ht]
      · exact ht
  | call u =>
    simp only [step] at hs
    split at hs
    · rename_i hu
      cases hs
      exact hset hu (.inl (by simp))
    · cases hs
  | returnTask u =>
    simp only [step] at hs
    split at hs
    · rename_i hu
      cases hs
      exact hset hu (.inr fun h => hl (h ▸ rfl))
    · cases hs
  | waitNextTask u =>
    simp only [step] at hs
    split at hs
    · rename_i hu
      split at hs
      · cases hs
        exact htake (by rfl) hu (by simp)
      · cases hs
        exact hset hu (.inl (by simp))
    · cases hs
  | wake u timeout =>
    simp only [step] at hs
    split at hs
    · rename_i hu
      split at hs
      · cases hs
        exact htake rfl hu (by simp)
      · cases hs
        exact ht
    · cases hs
  | quiesce =>
    cases hs
    exact ht
  | quiesced =>
    obtain ⟨-, hs⟩ := Option.ite_none_right_eq_some.mp hs
    cases hs
    exact ht

/-- Only `RunBlockingTask` starts threads, and only it counts submissions. -/
theorem length_step (hl : l ≠ .runBlockingTask) (hs : step max s l = some s') :
    s'.threads.length = s.threads.length ∧ s'.submitted = s.submitted := by
  have htake : ∀ (w : St) (u : Nat), (takeTask w u).threads.length = w.threads.length ∧
      (takeTask w u).submitted = w.submitted := by
    intro w u
    unfold takeTask
    split <;> simp [exitThread]
  cases l with
  | runBlockingTask => exact absurd rfl hl
  | call u | returnTask u =>
    simp only [step] at hs
    split at hs
    · cases hs
      simp
    · cases hs
  | waitNextTask u =>
    simp only [step] at hs
    split at hs
    · split at hs
      · cases hs
        exact htake _ u
      · cases hs
        simp
    · cases hs
  | wake u timeout =>
    simp only [step] at hs
    split at hs
    · split at hs
      · cases hs
        exact htake _ u
      · cases hs
        exact ⟨rfl, rfl⟩
    · cases hs
  | quiesce =>
    cases hs
    exact ⟨rfl, rfl⟩
  | quiesced =>
    obtain ⟨-, hs⟩ := Option.ite_none_right_eq_some.mp hs
    cases hs
    exact ⟨rfl, rfl⟩

/-! ## All runs -/

/-- Some thread has the task `k`, and is going to call it or is in it. -/
def St.Held (s : St) (k : Nat) : Prop := .call k ∈ s.threads ∨ .task k ∈ s.threads

theorem Inv.placed (h : Inv max s) {k : Nat} (hk : k ∈ s.accepted) :
    k ∈ s.returned ∨ s.Held k ∨ k ∈ s.mIdleTaskQueue := by
  have hpos := List.count_pos_iff.mpr hk
  have h1 := h.accepted k
  have h2 := h.called k
  by_cases hq : k ∈ s.mIdleTaskQueue
  · exact .inr (.inr hq)
  by_cases hcall : s.threads.countP (Pc.calls k) = 0
  · by_cases htask : s.threads.countP (Pc.executes k) = 0
    · rw [List.count_eq_zero.mpr hq] at h1
      exact .inl (List.count_pos_iff.mp (by omega))
    · obtain ⟨pc, hm, hpc⟩ := List.countP_pos_iff.mp (Nat.pos_of_ne_zero htask)
      exact .inr (.inl (.inr (of_decide_eq_true hpc ▸ hm)))
  · obtain ⟨pc, hm, hpc⟩ := List.countP_pos_iff.mp (Nat.pos_of_ne_zero hcall)
    exact .inr (.inl (.inl (of_decide_eq_true hpc ▸ hm)))

theorem Inv.called_le (h : Inv max s) (k : Nat) : s.called.count k ≤ 1 := by
  have h1 := h.accepted k
  have h2 := h.fresh k
  split at h2 <;> omega

/-- A task that was given back was not called. -/
theorem Inv.not_called (h : Inv max s) {k : Nat} (hk : k ∈ s.refused) : k ∉ s.called := by
  have hpos := List.count_pos_iff.mpr hk
  have h1 := h.accepted k
  have h2 := h.fresh k
  refine List.count_eq_zero.mp ?_
  split at h2 <;> omega

/-- Without dynamic threads every accepted task has returned. -/
theorem Inv.quiet (h : Inv max s) (h0 : s.mNumDynamicThreads = 0) :
    s.mIdleTaskQueue = [] ∧ ∀ k ∈ s.accepted, k ∈ s.returned := by
  have hempty := h.queue_nil h0
  refine ⟨hempty, fun k hk => ?_⟩
  have hnone := h.exited h0
  rcases h.placed hk with hr | (hc | hc) | hm
  · exact hr
  · cases hnone _ hc
  · cases hnone _ hc
  · rw [hempty] at hm
    cases hm

/-- The counters are in order; an accepted task is called once at most and is in one of three places;
a task that was given back is never called; and `Quiesce` leaves nothing behind. -/
theorem dynamic_threads (mMaxNumDynamicThreads : Nat) {s : St}
    (hs : (sys mMaxNumDynamicThreads).Reach Any s) :
    s.mIdleTaskQueue.length ≤ s.mNumIdleDynamicThreads ∧
    s.mNumIdleDynamicThreads ≤ s.mNumDynamicThreads ∧
    s.mNumDynamicThreads ≤ mMaxNumDynamicThreads ∧
    s.called.Nodup ∧
    (∀ k ∈ s.accepted, k ∈ s.returned ∨ s.Held k ∨ k ∈ s.mIdleTaskQueue) ∧
    (∀ k ∈ s.refused, k ∉ s.called) ∧
    (∀ s', step mMaxNumDynamicThreads s .quiesced = some s' →
      s.mIdleTaskQueue = [] ∧ ∀ k ∈ s.accepted, k ∈ s.returned) := by
  have h := inv_reach hs
  refine ⟨h.queue, h.idle_le, h.max, List.nodup_iff_count_le_one.mpr h.called_le, fun k => h.placed,
    fun k => h.not_called, fun s' hn => ?_⟩
  obtain ⟨⟨-, h0⟩, -⟩ := Option.ite_none_right_eq_some.mp hn
  exact h.quiet h0

/-- With at most one dynamic thread: a second task is given back while the first runs, a third is
handed over while the thread is idle, at the moment when its time is over. -/
def handOver : List Label :=
  [.runBlockingTask, .runBlockingTask, .call 0, .returnTask 0, .waitNextTask 0, .runBlockingTask,
    .wake 0 true, .quiesce, .call 0, .returnTask 0, .waitNextTask 0]

theorem dynamic_threads_one : ∃ s, runLabels (step 1) init handOver = some s ∧
    s.accepted = [2, 0] ∧ s.refused = [1] ∧ s.mIdleTaskQueue = [] ∧ ∀ k ∈ s.accepted, k ∈ s.returned := by
  refine ⟨_, rfl, rfl, rfl, ?_⟩
  have hr := reach_runLabels (fun _ => True) (Reach.init (S := sys 1) rfl) handOver
    (fun _ _ => trivial) rfl
  exact (dynamic_threads 1 hr).2.2.2.2.2.2 _ rfl

end BlockingWorkQueue

end AsyncLib
