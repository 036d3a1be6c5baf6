import AsyncLib.Lib.Modify
import AsyncLib.Lib.System

/-!
# `WhenAllReady`

`async/coroutine/internal/when_all_counter.h`, `when_all_ready_awaitable.h` and `when_all_task.h`.
The awaiting coroutine starts its tasks one after the other, then registers itself and gives up its
own share of the counter; every task gives up its share when it has completed.

* `Task`: where a task is. `start` resumes its coroutine, and returns at any time: the task may have
  suspended itself, and complete on another thread, or have completed.
* `Pc`: where the awaiting coroutine is; it may await the same awaitable again.
* `Inv`: the counter is the number of shares that were not given up.
* `whenAllReady_correct`: in every state reached, for any number of tasks.
-/

namespace AsyncLib

namespace WhenAllReady

open Sys

/-! ## The code -/

/-- The two forms of the awaitable; the empty tuple is always ready. -/
inductive Form where
  | tuple
  | vector
  deriving DecidableEq, Repr

/-- Where a task is; `threw` tells an exception from a result. -/
inductive Task where
  | notStarted
  | running
  /-- Before `notify_awaitable_completed`. -/
  | completed (threw : Bool)
  /-- In it, at `mAwaitingCoroutine.resume()`. -/
  | resuming (threw : Bool)
  | done (threw : Bool)
  deriving DecidableEq, Repr

/-- Where the awaiting coroutine is. -/
inductive Pc where
  | idle
  /-- In `try_await`, before the start of task `i`. -/
  | starting (i : Nat)
  /-- In `start` of task `i`. -/
  | inStart (i : Nat)
  /-- At `WhenAllCounter::try_await`. -/
  | register
  /-- At its `fetch_sub`. -/
  | decrement
  | suspended
  | continued
  /-- A coroutine was resumed that was not suspended. -/
  | fault
  deriving DecidableEq, Repr

/-- The counter, the tasks, and the awaiting coroutine. -/
structure St where
  mCount : Int
  /-- A coroutine is registered. -/
  mAwaitingCoroutine : Bool
  pc : Pc
  tasks : List Task
  /-- The tasks that were started, in order. -/
  started : List Nat
  /-- How often the awaitable was awaited, and how often the coroutine went on. -/
  awaits : Nat
  continues : Nat
  deriving DecidableEq, Repr

/-- The coroutine awaits, or a task completes or resumes it. -/
inductive Label where
  /-- The coroutine awaits the awaitable. -/
  | await
  /-- Its next step in `try_await`. -/
  | tryAwait
  /-- A task completes, with a result or an exception. -/
  | complete (t : Nat) (threw : Bool)
  | notify (t : Nat)
  | resume (t : Nat)
  deriving DecidableEq, Repr

/-- `await_ready`. -/
def isReady (form : Form) (s : St) : Bool :=
  s.mAwaitingCoroutine || (decide (form = .tuple) && s.tasks.isEmpty)

/-- The coroutine awaits: it continues at once if the awaitable is ready. -/
def await (form : Form) (s : St) : St :=
  if isReady form s then
    { s with pc := .continued, awaits := s.awaits + 1, continues := s.continues + 1 }
  else { s with pc := .starting 0, awaits := s.awaits + 1 }

/-- The next step of `try_await`: it starts the tasks, and then registers. -/
def tryAwait (s : St) : Option St :=
  match s.pc with
  | .starting i =>
    match s.tasks[i]? with
    | none => some { s with pc := .register }
    | some .notStarted =>
      some { s with tasks := s.tasks.set i .running, started := s.started ++ [i], pc := .inStart i }
    | some _ => some { s with pc := .fault }
  | .inStart i => some { s with pc := .starting (i + 1) }
  | .register => some { s with mAwaitingCoroutine := true, pc := .decrement }
  | .decrement =>
    if s.mCount > 1 then some { s with mCount := s.mCount - 1, pc := .suspended }
    else some { s with mCount := s.mCount - 1, pc := .continued, continues := s.continues + 1 }
  | _ => none

/-- The `fetch_sub` of `notify_awaitable_completed`. -/
def notify (s : St) (t : Nat) (threw : Bool) : St :=
  { s with
    mCount := s.mCount - 1
    tasks := s.tasks.set t (if s.mCount = 1 then .resuming threw else .done threw) }

/-- `mAwaitingCoroutine.resume()`. -/
def resume (s : St) (t : Nat) (threw : Bool) : St :=
  if s.mAwaitingCoroutine = true ∧ s.pc = .suspended then
    { s with tasks := s.tasks.set t (.done threw), pc := .continued, continues := s.continues + 1 }
  else { s with pc := .fault }

/-- One step; `none` if it is not enabled. -/
def step (form : Form) (s : St) : Label → Option St
  | .await => if s.pc = .idle ∨ s.pc = .continued then some (await form s) else none
  | .tryAwait => tryAwait s
  | .complete t threw =>
    match s.tasks[t]? with
    | some .running => some { s with tasks := s.tasks.set t (.completed threw) }
    | _ => none
  | .notify t =>
    match s.tasks[t]? with
    | some (.completed threw) => some (notify s t threw)
    | _ => none
  | .resume t =>
    match s.tasks[t]? with
    | some (.resuming threw) => some (resume s t threw)
    | _ => none

/-- `WhenAllCounter(n)`, and `n` tasks. -/
def init (n : Nat) : St where
  mCount := n + 1
  mAwaitingCoroutine := false
  pc := .idle
  tasks := List.replicate n .notStarted
  started := []
  awaits := 0
  continues := 0

/-- All runs with `n` tasks. -/
def sys (form : Form) (n : Nat) : Sys St Label := ofFun (init n) (step form)

/-! ## The invariant -/

/-- The task still has its share of the counter. -/
def Task.pending : Task → Bool
  | .notStarted | .running | .completed _ => true
  | .resuming _ | .done _ => false

/-- The task is about to resume the coroutine. -/
def Task.isResuming : Task → Bool
  | .resuming _ => true
  | _ => false

/-- The task has completed. -/
def Task.isDone : Task → Bool
  | .done _ => true
  | _ => false

theorem Task.not_pending {t : Task} (h : t.isDone = true) :
    t.pending = false ∧ t.isResuming = false := by
  cases t with
  | done _ => exact ⟨rfl, rfl⟩
  | _ => cases h

/-- The share of the awaiting coroutine. -/
def St.share (s : St) : Nat :=
  match s.pc with
  | .suspended => 0
  | .continued => if s.mAwaitingCoroutine then 0 else 1
  | _ => 1

/-- How many of `n` tasks are started at a place. -/
def Pc.started (n : Nat) : Pc → Nat
  | .idle => 0
  | .starting i => i
  | .inStart i => i + 1
  | _ => n

/-- In an await that did not go on yet. -/
def Pc.waits : Pc → Nat
  | .idle | .continued => 0
  | _ => 1

/-- `mCount` is the number of tasks that have not completed, and the share of the coroutine. -/
structure Inv (form : Form) (n : Nat) (s : St) : Prop where
  length : s.tasks.length = n
  counter : s.mCount = s.tasks.countP Task.pending + s.share
  started : s.started = List.range (s.pc.started n) ∧ s.pc.started n ≤ n
  tasks : Each (fun i t => t = .notStarted ↔ s.pc.started n ≤ i) s.tasks
  registered : (s.pc = .decrement ∨ s.pc = .suspended → s.mAwaitingCoroutine = true) ∧
    (s.pc = .idle → s.mAwaitingCoroutine = false) ∧
    (s.pc = .continued → isReady form s = true)
  resuming : s.tasks.countP Task.isResuming = if s.pc = .suspended ∧ s.mCount = 0 then 1 else 0
  finished : s.pc = .continued → ∀ t ∈ s.tasks, t.isDone = true
  awaits : s.continues + s.pc.waits = s.awaits
  defined : s.pc ≠ .fault

variable {form : Form} {n : Nat} {s s' : St}

theorem inv_init (form : Form) (n : Nat) : Inv form n (init n) where
  length := List.length_replicate
  counter := by
    have hall : (List.replicate n Task.notStarted).countP Task.pending = n := by
      rw [List.countP_replicate]
      rfl
    show (n : Int) + 1 = _
    rw [init, hall]
    rfl
  started := ⟨rfl, Nat.zero_le _⟩
  tasks i t hi := by
    rw [List.eq_of_mem_replicate (List.mem_of_getElem? hi)]
    exact ⟨fun _ => Nat.zero_le _, fun _ => rfl⟩
  registered := ⟨nofun, fun _ => rfl, nofun⟩
  resuming := by
    rw [init, List.countP_replicate]
    rfl
  finished := nofun
  awaits := rfl
  defined := nofun

theorem pending_eq_zero (h : s.tasks.countP Task.pending = 0)
    (h' : s.tasks.countP Task.isResuming = 0) : ∀ t ∈ s.tasks, t.isDone = true := by
  intro t ht
  have hp := List.countP_eq_zero.mp h t ht
  have hr := List.countP_eq_zero.mp h' t ht
  cases t with
  | done _ => rfl
  | notStarted | running | completed _ => exact absurd rfl hp
  | resuming _ => exact absurd rfl hr

/-! ## The steps of the awaiting coroutine -/

theorem Inv.await (h : Inv form n s) (hpc : s.pc = .idle ∨ s.pc = .continued) :
    Inv form n (WhenAllReady.await form s) := by
  have hwaits : s.continues = s.awaits := by
    have hw := h.awaits
    rcases hpc with hpc | hpc <;> rw [hpc] at hw <;> exact hw
  have hresuming := h.resuming
  have hnone : s.tasks.countP Task.isResuming = 0 := by
    rw [hresuming, if_neg]
    rcases hpc with hpc | hpc <;> rw [hpc] <;> nofun
  rw [WhenAllReady.await]
  rcases hpc with hpc | hpc
  · have hunregistered := h.registered.2.1 hpc
    have hcounter := h.counter
    rw [St.share, hpc] at hcounter
    have hstarted := h.started
    have htasks := h.tasks
    rw [hpc] at hstarted htasks
    by_cases hready : isReady form s = true
    · rw [if_pos hready]
      have hempty : s.tasks = [] := by
        rw [isReady, hunregistered] at hready
        simp at hready
        exact hready.2
      have hn : n = 0 := by
        rw [← h.length, hempty]
        rfl
      subst hn
      refine ⟨h.length, ?_, hstarted, ?_, ⟨nofun, nofun, fun _ => hready⟩, ?_, fun _ t ht => ?_, ?_,
        nofun⟩
      · show s.mCount = _ + ((if s.mAwaitingCoroutine = true then 0 else 1 : Nat) : Int)
        rw [hunregistered]
        exact hcounter
      · exact htasks
      · rw [if_neg nofun]
        exact hnone
      · rw [hempty] at ht
        cases ht
      · show s.continues + 1 + 0 = s.awaits + 1
        rw [hwaits]
    · rw [if_neg hready]
      refine ⟨h.length, hcounter, hstarted, htasks, ⟨nofun, nofun, nofun⟩, ?_, nofun, ?_, nofun⟩
      · rw [if_neg nofun]
        exact hnone
      · show s.continues + 1 = s.awaits + 1
        rw [hwaits]
  · have hready := h.registered.2.2 hpc
    rw [if_pos hready]
    have hcounter := h.counter
    rw [St.share, hpc] at hcounter
    have hstarted := h.started
    have htasks := h.tasks
    rw [hpc] at hstarted htasks
    refine ⟨h.length, hcounter, hstarted, htasks, ⟨nofun, nofun, fun _ => hready⟩, ?_,
      fun _ => h.finished hpc, ?_, nofun⟩
    · rw [if_neg nofun]
      exact hnone
    · show s.continues + 1 + 0 = s.awaits + 1
      rw [hwaits]

/-- The next task is started. -/
theorem Inv.start (h : Inv form n s) {i : Nat} (hpc : s.pc = .starting i)
    (ht : s.tasks[i]? = some .notStarted) :
    Inv form n { s with
      tasks := s.tasks.set i .running, started := s.started ++ [i], pc := .inStart i } := by
  have hpending := countP_set_add (p := Task.pending) (y := .running) ht
  have hresuming := countP_set_add (p := Task.isResuming) (y := .running) ht
  have hcounter : s.mCount = s.tasks.countP Task.pending + 1 := by
    have hc := h.counter
    rw [St.share, hpc] at hc
    exact hc
  have hstarted := h.started
  have hnone : s.tasks.countP Task.isResuming = 0 := by
    rw [h.resuming, if_neg]
    rw [hpc]
    nofun
  have hawaits := h.awaits
  obtain ⟨hlt, -⟩ := List.getElem?_eq_some_iff.mp ht
  rw [h.length] at hlt
  rw [hpc] at hstarted hawaits
  refine ⟨by rw [List.length_set]; exact h.length, ?_, ⟨?_, hlt⟩, ?_, ⟨nofun, nofun, nofun⟩, ?_,
    nofun, hawaits, nofun⟩
  · show s.mCount = ((s.tasks.set i .running).countP Task.pending : Int) + 1
    rw [hcounter, Nat.add_right_cancel hpending]
  · show s.started ++ [i] = List.range (i + 1)
    rw [hstarted.1, List.range_succ]
    rfl
  · show Each (fun u t => t = .notStarted ↔ i + 1 ≤ u) (s.tasks.set i .running)
    intro u t hu
    rcases Nat.decEq i u with hne | rfl
    · rw [List.getElem?_set_ne hne] at hu
      have hold := h.tasks u t hu
      rw [hpc] at hold
      refine hold.trans ?_
      show i ≤ u ↔ i + 1 ≤ u
      omega
    · rw [List.getElem?_set_self'] at hu
      obtain ⟨-, -, rfl⟩ := Option.map_eq_some_iff.mp hu
      exact ⟨nofun, fun hle => absurd hle (Nat.not_succ_le_self i)⟩
  · rw [if_neg nofun]
    exact hresuming.trans hnone

/-- A move that neither starts a task nor gives up the share. -/
theorem Inv.goto (h : Inv form n s) {pc : Pc} {b : Bool} (hshare : s.share = 1)
    (hpc : pc = .register ∨ pc = .decrement ∨ ∃ i, pc = .starting i)
    (hstarted : s.pc.started n = pc.started n) (hwaits : s.pc.waits = 1)
    (hne : s.pc ≠ .suspended) (hb : pc = .decrement → b = true) :
    Inv form n { s with mAwaitingCoroutine := b, pc := pc } := by
  have hcounter := h.counter
  have hnone := h.resuming
  have hawaits := h.awaits
  have hold := h.started
  have htasks := h.tasks
  rw [if_neg fun hc => hne hc.1] at hnone
  rw [hwaits] at hawaits
  rw [hstarted] at hold htasks
  rw [hshare] at hcounter
  obtain rfl | rfl | ⟨i, rfl⟩ := hpc
  · exact ⟨h.length, hcounter, hold, htasks, ⟨nofun, nofun, nofun⟩, by rw [if_neg nofun]; exact hnone,
      nofun, hawaits, nofun⟩
  · exact ⟨h.length, hcounter, hold, htasks, ⟨fun _ => hb rfl, nofun, nofun⟩,
      by rw [if_neg nofun]; exact hnone, nofun, hawaits, nofun⟩
  · exact ⟨h.length, hcounter, hold, htasks, ⟨nofun, nofun, nofun⟩, by rw [if_neg nofun]; exact hnone,
      nofun, hawaits, nofun⟩

/-- The awaiting coroutine gives up its share. -/
theorem Inv.decrement (h : Inv form n s) (hpc : s.pc = .decrement)
    (hs : WhenAllReady.tryAwait s = some s') : Inv form n s' := by
  have hcounter := h.counter
  have hstarted := h.started
  have htasks := h.tasks
  have hnone := h.resuming
  have hawaits := h.awaits
  have hregistered := h.registered.1 (.inl hpc)
  rw [St.share, hpc] at hcounter
  rw [hpc] at hstarted htasks hnone hawaits
  rw [if_neg nofun] at hnone
  have hcount : s.mCount = s.tasks.countP Task.pending + 1 := hcounter
  simp only [WhenAllReady.tryAwait, hpc] at hs
  by_cases hgt : s.mCount > 1
  · rw [if_pos hgt] at hs
    cases hs
    refine ⟨h.length, ?_, hstarted, htasks, ⟨fun _ => hregistered, nofun, nofun⟩, ?_, nofun, hawaits,
      nofun⟩
    · show s.mCount - 1 = (s.tasks.countP Task.pending : Int) + ((0 : Nat) : Int)
      omega
    · have hne : ¬ (Pc.suspended = .suspended ∧ s.mCount - 1 = 0) := fun hc => by
        have := hc.2
        omega
      rw [if_neg hne]
      exact hnone
  · rw [if_neg hgt] at hs
    cases hs
    have hzero : s.tasks.countP Task.pending = 0 := by omega
    have hready : isReady form s = true := by
      rw [isReady, hregistered]
      rfl
    refine ⟨h.length, ?_, hstarted, htasks, ⟨nofun, nofun, fun _ => hready⟩, ?_,
      fun _ => pending_eq_zero hzero hnone, ?_, nofun⟩
    · show s.mCount - 1 = (s.tasks.countP Task.pending : Int) +
        ((if s.mAwaitingCoroutine = true then 0 else 1 : Nat) : Int)
      rw [if_pos hregistered]
      omega
    · rw [if_neg nofun]
      exact hnone
    · show s.continues + 1 + 0 = s.awaits
      exact hawaits

theorem Inv.tryAwait (h : Inv form n s) (hs : WhenAllReady.tryAwait s = some s') :
    Inv form n s' := by
  cases hpc : s.pc with
  | idle | suspended | continued | fault =>
    simp only [WhenAllReady.tryAwait, hpc] at hs
    cases hs
  | starting i =>
    have hshare : s.share = 1 := by rw [St.share, hpc]
    have hle := h.started.2
    rw [hpc] at hle
    simp only [WhenAllReady.tryAwait, hpc] at hs
    cases ht : s.tasks[i]? with
    | none =>
      rw [ht] at hs
      cases hs
      have hlen := List.getElem?_eq_none_iff.mp ht
      have hi : i = n := Nat.le_antisymm hle (h.length ▸ hlen)
      exact h.goto hshare (.inl rfl) (by rw [hpc]; exact hi) (by rw [hpc]; rfl) (by rw [hpc]; nofun)
        nofun
    | some t =>
      rw [ht] at hs
      have hnot := h.tasks i t ht
      rw [hpc] at hnot
      cases hnot.mpr (Nat.le_refl i)
      cases hs
      exact h.start hpc ht
  | inStart i =>
    simp only [WhenAllReady.tryAwait, hpc, Option.some.injEq] at hs
    subst hs
    exact h.goto (by rw [St.share, hpc]) (.inr (.inr ⟨i + 1, rfl⟩)) (by rw [hpc]; rfl)
      (by rw [hpc]; rfl) (by rw [hpc]; nofun) nofun
  | register =>
    simp only [WhenAllReady.tryAwait, hpc, Option.some.injEq] at hs
    subst hs
    exact h.goto (by rw [St.share, hpc]) (.inr (.inl rfl)) (by rw [hpc]; rfl)
      (by rw [hpc]; rfl) (by rw [hpc]; nofun) fun _ => rfl
  | decrement => exact h.decrement hpc hs

/-! ## The steps of the tasks -/

/-- A started task moves on; the others, and who is started, stay. -/
theorem started_set (h : Inv form n s) {t : Nat} {x y : Task} (ht : s.tasks[t]? = some x)
    (hx : x ≠ .notStarted) (hy : y ≠ .notStarted) :
    Each (fun i t => t = .notStarted ↔ s.pc.started n ≤ i) (s.tasks.set t y) := by
  refine h.tasks.set fun _ => ?_
  have hold := h.tasks t x ht
  exact ⟨fun he => absurd he hy, fun hle => absurd (hold.mpr hle) hx⟩

theorem length_set (h : Inv form n s) (t : Nat) (y : Task) : (s.tasks.set t y).length = n := by
  rw [List.length_set, h.length]

/-- After the coroutine went on, no task has a step. -/
theorem Inv.not_continued (h : Inv form n s) {t : Nat} {x : Task} (ht : s.tasks[t]? = some x)
    (hx : x.isDone = false) : s.pc ≠ .continued := by
  intro hpc
  have hdone := h.finished hpc x (List.mem_of_getElem? ht)
  rw [hx] at hdone
  cases hdone

theorem Inv.complete (h : Inv form n s) {t : Nat} {threw : Bool}
    (ht : s.tasks[t]? = some .running) :
    Inv form n { s with tasks := s.tasks.set t (.completed threw) } := by
  have hpending := countP_set_add (p := Task.pending) (y := .completed threw) ht
  have hresuming := countP_set_add (p := Task.isResuming) (y := .completed threw) ht
  have hnc := h.not_continued ht rfl
  have hcounter := h.counter
  rw [← Nat.add_right_cancel hpending] at hcounter
  have hone := h.resuming
  rw [← Nat.add_right_cancel hresuming] at hone
  refine ⟨length_set h t _, hcounter, h.started, started_set h ht nofun nofun, ⟨h.registered.1,
    h.registered.2.1, fun hpc => absurd hpc hnc⟩, hone, fun hpc => absurd hpc hnc, h.awaits,
    h.defined⟩

/-- A task gives up its share; the last share is given up while the coroutine is suspended. -/
theorem Inv.notify (h : Inv form n s) {t : Nat} {threw : Bool}
    (ht : s.tasks[t]? = some (.completed threw)) : Inv form n (WhenAllReady.notify s t threw) := by
  have hnc := h.not_continued ht rfl
  have hpos : 0 < s.tasks.countP Task.pending :=
    List.countP_pos_iff.mpr ⟨_, List.mem_of_getElem? ht, rfl⟩
  have hcounter := h.counter
  have hnone : s.tasks.countP Task.isResuming = 0 := by
    rw [h.resuming, if_neg]
    rintro ⟨hpc, hzero⟩
    omega
  rw [WhenAllReady.notify]
  by_cases hone : s.mCount = 1
  · rw [if_pos hone]
    have hpending := countP_set_add (p := Task.pending) (y := .resuming threw) ht
    have hresuming := countP_set_add (p := Task.isResuming) (y := .resuming threw) ht
    have hdec : (s.tasks.set t (.resuming threw)).countP Task.pending + 1 =
        s.tasks.countP Task.pending := hpending
    have hinc : (s.tasks.set t (.resuming threw)).countP Task.isResuming =
        s.tasks.countP Task.isResuming + 1 := hresuming
    -- one share is left, and the task has it
    have hsuspended : s.pc = .suspended := by
      have hshare : s.share = 0 := by omega
      rw [St.share] at hshare
      cases hpc : s.pc with
      | suspended => rfl
      | continued => exact absurd hpc hnc
      | _ =>
        rw [hpc] at hshare
        cases hshare
    refine ⟨length_set h t _, ?_, h.started, started_set h ht nofun nofun, ⟨h.registered.1,
      h.registered.2.1, fun hpc => absurd hpc hnc⟩, ?_, fun hpc => absurd hpc hnc, h.awaits,
      h.defined⟩
    · show s.mCount - 1 = ((s.tasks.set t (.resuming threw)).countP Task.pending : Int) + s.share
      omega
    · have hboth : s.pc = .suspended ∧ s.mCount - 1 = 0 := ⟨hsuspended, by omega⟩
      rw [if_pos hboth, hinc, hnone]
  · rw [if_neg hone]
    have hpending := countP_set_add (p := Task.pending) (y := .done threw) ht
    have hresuming := countP_set_add (p := Task.isResuming) (y := .done threw) ht
    have hdec : (s.tasks.set t (.done threw)).countP Task.pending + 1 =
        s.tasks.countP Task.pending := hpending
    refine ⟨length_set h t _, ?_, h.started, started_set h ht nofun nofun, ⟨h.registered.1,
      h.registered.2.1, fun hpc => absurd hpc hnc⟩, ?_, fun hpc => absurd hpc hnc, h.awaits,
      h.defined⟩
    · show s.mCount - 1 = ((s.tasks.set t (.done threw)).countP Task.pending : Int) + s.share
      omega
    · have hne : ¬ (s.pc = .suspended ∧ s.mCount - 1 = 0) := fun hc => by
        have := hc.2
        omega
      rw [if_neg hne]
      exact (Nat.add_right_cancel hresuming).trans hnone

/-- The last task resumes the coroutine, which is suspended. -/
theorem Inv.resume (h : Inv form n s) {t : Nat} {threw : Bool}
    (ht : s.tasks[t]? = some (.resuming threw)) : Inv form n (WhenAllReady.resume s t threw) := by
  have hpos : 0 < s.tasks.countP Task.isResuming :=
    List.countP_pos_iff.mpr ⟨_, List.mem_of_getElem? ht, rfl⟩
  obtain ⟨hsuspended, hzero⟩ : s.pc = .suspended ∧ s.mCount = 0 := by
    by_contra hc
    rw [h.resuming, if_neg hc] at hpos
    cases hpos
  have hregistered := h.registered.1 (.inr hsuspended)
  have hcounter := h.counter
  have hstarted := h.started
  have htasks := started_set h (y := .done threw) ht nofun nofun
  have hawaits := h.awaits
  have hone := h.resuming
  rw [if_pos ⟨hsuspended, hzero⟩] at hone
  rw [hsuspended] at hstarted htasks hawaits
  have hpending := countP_set_add (p := Task.pending) (y := .done threw) ht
  have hresuming := countP_set_add (p := Task.isResuming) (y := .done threw) ht
  have hpend : (s.tasks.set t (.done threw)).countP Task.pending = 0 := by
    have hsame : (s.tasks.set t (.done threw)).countP Task.pending =
        s.tasks.countP Task.pending := Nat.add_right_cancel hpending
    omega
  have hnone : (s.tasks.set t (.done threw)).countP Task.isResuming = 0 := by
    have hdec : (s.tasks.set t (.done threw)).countP Task.isResuming + 1 =
        s.tasks.countP Task.isResuming := hresuming
    omega
  rw [WhenAllReady.resume, if_pos ⟨hregistered, hsuspended⟩]
  refine ⟨length_set h t _, ?_, hstarted, htasks, ⟨nofun, nofun, fun _ => ?_⟩, ?_, fun _ => ?_, ?_,
    nofun⟩
  · show s.mCount = ((s.tasks.set t (.done threw)).countP Task.pending : Int) +
      ((if s.mAwaitingCoroutine = true then 0 else 1 : Nat) : Int)
    rw [if_pos hregistered, hzero, hpend]
    rfl
  · rw [isReady, hregistered]
    rfl
  · rw [if_neg nofun]
    exact hnone
  · exact pending_eq_zero (s := { s with tasks := s.tasks.set t (.done threw) }) hpend hnone
  · show s.continues + 1 + 0 = s.awaits
    exact hawaits

theorem Inv.step (h : Inv form n s) {l : Label} (hs : WhenAllReady.step form s l = some s') :
    Inv form n s' := by
  cases l with
  | await =>
    obtain ⟨hpc, hs⟩ := Option.ite_none_right_eq_some.mp hs
    cases hs
    exact h.await hpc
  | tryAwait => exact h.tryAwait hs
  | complete t threw =>
    simp only [WhenAllReady.step] at hs
    split at hs
    · next ht =>
      cases hs
      exact h.complete ht
    · cases hs
  | notify t =>
    simp only [WhenAllReady.step] at hs
    split at hs
    · next ht =>
      cases hs
      exact h.notify ht
    · cases hs
  | resume t =>
    simp only [WhenAllReady.step] at hs
    split at hs
    · next ht =>
      cases hs
      exact h.resume ht
    · cases hs

/-! ## All runs -/

theorem inv_reach (hs : (sys form n).Reach Any s) : Inv form n s := by
  refine hs.invariant ?_ ?_
  · rintro s rfl
    exact inv_init form n
  · intro s l s' h _ hn
    exact h.step hn

/-- What the awaiting coroutine and the tasks see. -/
structure Correct (s : St) : Prop where
  /-- Every await goes on once, or is still in progress. -/
  once : s.continues + s.pc.waits = s.awaits
  /-- The coroutine goes on when every task has completed, with a result or an exception. -/
  completed : s.pc = .continued → ∀ t ∈ s.tasks, t.isDone = true
  /-- It does not wait for nothing. -/
  waits : s.pc = .suspended → ∃ t ∈ s.tasks, t.isDone = false
  /-- No task is started twice, in one await or in several. -/
  started : s.started.Nodup
  /-- Only a suspended coroutine is resumed, and only a task that was not started. -/
  defined : s.pc ≠ .fault

/-- **The awaiting coroutine goes on once for each await, when all its tasks have completed.** -/
theorem whenAllReady_correct (form : Form) (n : Nat) (s : St) (hs : (sys form n).Reach Any s) :
    Correct s := by
  have h := inv_reach hs
  refine ⟨h.awaits, h.finished, fun hpc => ?_, h.started.1 ▸ List.nodup_range, h.defined⟩
  by_contra hall
  have hdone : ∀ t ∈ s.tasks, t.isDone = true := fun t ht => by
    by_contra hne
    exact hall ⟨t, ht, Bool.eq_false_iff.mpr hne⟩
  have hcounter := h.counter
  rw [St.share, hpc] at hcounter
  have hpending : s.tasks.countP Task.pending = 0 := List.countP_eq_zero.mpr fun t ht hp => by
    rw [(Task.not_pending (hdone t ht)).1] at hp
    cases hp
  have hresuming : s.tasks.countP Task.isResuming = 0 := List.countP_eq_zero.mpr fun t ht hr => by
    rw [(Task.not_pending (hdone t ht)).2] at hr
    cases hr
  rw [hpending] at hcounter
  have hone := h.resuming
  rw [hresuming, if_pos ⟨hpc, hcounter⟩] at hone
  cases hone

/-- One task completes while it is started, the other one throws when the coroutine is suspended;
the awaitable is awaited once more. -/
theorem whenAllReady_correct_two : ∃ s : St, s.pc = .continued ∧ s.continues = 2 ∧
    s.tasks = [.done false, .done true] ∧ Correct s := by
  have hr : ∀ s, runLabels (step .vector) (init 2) [.await, .tryAwait, .complete 0 false, .notify 0,
      .tryAwait, .tryAwait, .tryAwait, .tryAwait, .tryAwait, .tryAwait, .complete 1 true, .notify 1,
      .resume 1, .await] = some s → Correct s := fun s hs =>
    whenAllReady_correct .vector 2 s
      (reach_runLabels (fun _ => True) (.init rfl) _ (fun _ _ => trivial) hs)
  exact ⟨_, rfl, rfl, rfl, hr _ rfl⟩

end WhenAllReady

end AsyncLib
