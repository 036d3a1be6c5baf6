import AsyncLib.Concurrent.WorkQueueInv

/-!
# No task is left to sleeping workers

`AddTask` does not always notify a worker: a worker that pushes to its own empty queue does not, and
neither does a thread that finds a worker in the spin loop.

* `Alert`: for the queue `j`, some worker is going to look at it, some thread is going to notify a worker,
  or a worker is notified.
* `Watched`: there is an `Alert` for every queue that is not empty. `Watched.step`: every step keeps it.
* `no_lost_task`: no state is reached in which all workers are parked and not notified, no thread is in
  `AddTask`, and a queue is not empty.
-/

namespace AsyncLib

namespace WorkQueue

open Sys Spinning

variable {cfg : Config} {s s' : St} {t j : Nat} {th : Thread} {l : Label} {ok : St → Label → Prop}

/-- Some worker is going to look at the queue `j` before it parks. -/
def Awake (cfg : Config) (s : St) (j : Nat) : Prop :=
  Below cfg.mNumThreads (fun th => ¬ th.pc.Seen j) s.threads

/-- A task in the queue `j` is not left. -/
def Alert (cfg : Config) (s : St) (j : Nat) : Prop :=
  Awake cfg s j ∨ (∃ th ∈ s.threads, th.pc.Alarm) ∨ s.mEventCount.notified.Nonempty

/-- Every queue with a task is watched. -/
def Watched (cfg : Config) (s : St) : Prop :=
  ∀ j q, s.queues[j]? = some q → q ≠ [] → Alert cfg s j

/-- The thread `t` moves, and it is neither the last one to look nor the last one to notify. -/
theorem Alert.move {y : Thread} (h : Alert cfg s j) (ht : s.threads[t]? = some th)
    (hthreads : s'.threads = s.threads.set t y) (hseen : y.pc.Seen j → th.pc.Seen j)
    (halarm : th.pc.Alarm → y.pc.Alarm)
    (hnotified : s.mEventCount.notified.Nonempty → s'.mEventCount.notified.Nonempty) :
    Alert cfg s' j := by
  unfold Alert Awake
  rw [hthreads]
  rcases h with h | h | h
  · exact .inl (h.set ht fun hx hy => hx (hseen hy))
  · refine .inr (.inl ?_)
    rcases exists_set ht h with h | h
    · exact h
    · exact exists_set_self ht (halarm h)
  · exact .inr (.inr (hnotified h))

/-- The worker `t` is going to look. -/
theorem Alert.look {y : Thread} (hlt : t < cfg.mNumThreads) (ht : s.threads[t]? = some th)
    (hthreads : s'.threads = s.threads.set t y) (hseen : ¬ y.pc.Seen j) : Alert cfg s' j := by
  refine .inl ?_
  unfold Awake
  rw [hthreads]
  exact .self hlt ht hseen

/-- A worker spins if the notification of a worker is skipped. -/
theorem awake_of_skip (hn : cfg.mNumThreads < 2 ^ 32) (hs : (sys cfg).Reach ok s)
    (ht : s.threads[t]? = some th) (hp : th.pc = .notifyCas s.mSpinningState) : Awake cfg s j := by
  obtain ⟨log, hr⟩ := reach_spinning hs
  have hinv := Spinning.reach_inv hn hr
  have hk := hinv.notify t
  rw [(spinning_self ht log).2, hp] at hk
  have hpos : 0 < AsyncLib.count Spinning.Pc.inLoop cfg.mNumThreads (s.spinning log).pc := by
    rw [← hinv.count]
    exact Nat.lt_of_le_of_lt (Nat.zero_le _) hk.2
  obtain ⟨u, hu, hloop⟩ := List.countP_pos_iff.mp hpos
  simp only [St.spinning] at hloop
  cases hth : s.threads[u]? with
  | none =>
    rw [hth] at hloop
    cases hloop
  | some z =>
    rw [hth] at hloop
    exact ⟨u, List.mem_range.mp hu, z, hth, Pc.not_seen_of_inLoop hloop j⟩

/-- If a notification finds nobody to notify, some worker is going to look, or is notified. -/
theorem alert_of_full (hn : 1 ≤ cfg.mNumThreads) (hth : Threads cfg s)
    (hm : Matches s.mEventCount s.roles)
    (hfull : s.mEventCount.pre ∪ s.mEventCount.blocked ⊆ s.mEventCount.notified) :
    Alert cfg s j := by
  obtain ⟨z, hz⟩ : ∃ z, s.threads[0]? = some z :=
    ⟨_, List.getElem?_eq_getElem (by rw [hth.threads]; omega)⟩
  by_cases hseen : z.pc.Seen j
  · have hrole : s.roles 0 ≠ .free := by
      rw [roles_self hz]
      exact hseen.role
    refine .inr (.inr ⟨0, hfull (Finset.mem_union.mpr ?_)⟩)
    cases hr : s.roles 0 with
    | free => exact absurd hr hrole
    | pre => exact .inl ((hm.pre 0).mpr hr)
    | blocked => exact .inr ((hm.blocked 0).mpr hr)
  · exact .inl ⟨0, hn, z, hz, hseen⟩

/-- One step of a thread in the pool's code. -/
theorem Watched.move (hn : 1 ≤ cfg.mNumThreads) (hn' : cfg.mNumThreads < 2 ^ 31)
    (hs : (sys cfg).Reach ok s) (h : Watched cfg s) (ht : s.threads[t]? = some th)
    (hm : Moves cfg s t th s') : Watched cfg s' := by
  have hth := reach_threads hs
  have hmatch := reach_matches hs
  have hworker := (hth.each t th ht).worker
  intro j q hq hne
  cases hm with
  | quiet hx =>
    have hseen : ∀ {pc : Pc}, (pc.Seen j → th.pc.Seen j ∨ s.queues[j]? = some []) → pc.Seen j →
        th.pc.Seen j := fun h hs => (h hs).resolve_right fun he => hne (Option.some.inj (hq.symm.trans he))
    exact (h j q hq hne).move ht rfl (hseen (hx.seen j)) hx.alarm id
  | exec hi hperm _ _ _ hidle =>
    obtain ⟨q₀, hq₀, hne₀⟩ := nonempty_of_set hi hperm hq hne
    exact (h j q₀ hq₀ hne₀).move ht rfl (fun hs => hs.elim) (fun ha => absurd ha hidle.alarm) id
  | hold hi hperm hp =>
    obtain ⟨q₀, hq₀, hne₀⟩ := nonempty_of_set hi hperm hq hne
    exact (h j q₀ hq₀ hne₀).move ht rfl (fun hs => hs.elim) (fun ha => by rw [hp] at ha; exact ha) id
  | release hp | refuse hp | leave hp =>
    exact (h j q hq hne).move ht rfl (fun hs => hs.elim) (fun ha => by rw [hp] at ha; exact ha) id
  | push _ _ _ _ _ _ hpc =>
    rcases hpc with rfl | ⟨rfl, hw⟩
    · exact .inr (.inl (exists_set_self ht trivial))
    · exact .look (hworker hw) ht rfl id
  | inline _ _ hidle =>
    exact (h j q hq hne).move ht rfl (fun hs => hs.elim) (fun ha => absurd ha hidle.alarm) id
  | skip hp =>
    have hawake : Awake cfg s j := awake_of_skip (by omega) hs ht hp
    exact .inl (hawake.set ht fun _ => id)
  | prewait hp hw =>
    have hj : j < cfg.mNumThreads := hth.queues ▸ (List.getElem?_eq_some_iff.mp hq).1
    refine .look (hworker (by rw [hp]; trivial)) ht rfl fun hs => hs (mem_emptyVictims hn hn' hj)
  | cancelWait hp | cancelDone hp | take hp | wake hp | notifyDone hp =>
    exact .look (hworker (by rw [hp]; trivial)) ht rfl id
  | park hp hw =>
    refine (h j q hq hne).move ht rfl (fun _ => by rw [hp]; trivial)
      (fun ha => by rw [hp] at ha; exact ha) fun hne => ?_
    cases hw
    exact hne
  | notify hp hw =>
    have hm' := (Moves.notify hp hw).roles ht hmatch
    obtain ⟨y, hy⟩ := (Moves.notify hp hw).moved
    have hth' := hth.set (hy.ok (hth.each t th ht)) hy.threads hy.length
    cases hw with
    | notifyOne => exact .inr (.inr ⟨_, Finset.mem_insert_self _ _⟩)
    | notifyNone hfull => exact alert_of_full hn hth' hm' hfull

theorem Watched.step (hn : 1 ≤ cfg.mNumThreads) (hn' : cfg.mNumThreads < 2 ^ 31)
    (hs : (sys cfg).Reach ok s) (h : Watched cfg s) (hl : Steps cfg s l s') : Watched cfg s' := by
  have hrun : ∀ {th : Thread} {pc : Pc}, th.pc = .run → th.pc.Alarm → pc.Alarm :=
    fun hp ha => by rw [hp] at ha; exact ha.elim
  cases hl with
  | move ht hm => exact h.move hn hn' hs ht hm
  | addTask ht hp =>
    exact fun j q hq hne => (h j q hq hne).move ht rfl
      (fun hs => absurd hs ((idle_submit _ _ _ _ _).not_seen j)) (hrun hp) id
  | finish ht hp =>
    exact fun j q hq hne => (h j q hq hne).move ht rfl
      (fun hs => absurd hs ((idle_resume _ _ _ _ _).1.not_seen j)) (hrun hp) id
  | quiesce ht hp =>
    exact fun j q hq hne => (h j q hq hne).move ht rfl (fun hs => hs.elim) (hrun hp) id
  | destroy => exact h
  | notifyAll hw =>
    intro j q hq hne
    refine (h j q hq hne).imp id (Or.imp id fun hnot => ?_)
    cases hw
    exact hnot.mono (reach_matches hs).wf.notified

theorem reach_watched (hn : 1 ≤ cfg.mNumThreads) (hn' : cfg.mNumThreads < 2 ^ 31)
    (hs : (sys cfg).Reach ok s) : Watched cfg s := by
  refine hs.invariant_of (I := Watched cfg) (fun s hs => hs) (fun s hs => ?_)
    fun s l s' hs hi _ hl => hi.step hn hn' hs (step_steps hl)
  cases hs
  intro j q hq hne
  exact absurd (List.eq_of_mem_replicate (List.mem_of_getElem? hq)) hne

/-! ## The result -/

/-- In `AddTask` or `EnqueueBlockingTask`, but for a task that the thread calls there. -/
def Pc.InAddTask : Pc → Prop
  | .checkEmpty _ | .pushFront _ _ | .pushBack _ _ | .enqueue _ _ _ | .notifyLoad | .notifyCas _
  | .notify => True
  | _ => False

/-- All workers are parked and not notified, no thread is submitting a task, and a queue is not
empty. -/
structure Lost (cfg : Config) (s : St) : Prop where
  parked : ∀ w < cfg.mNumThreads, ∃ th, s.threads[w]? = some th ∧ th.pc = .parked ∧
    w ∉ s.mEventCount.notified
  outside : ∀ th ∈ s.threads, ¬ th.pc.InAddTask
  task : ∃ q ∈ s.queues, q ≠ []

/-- `n ≥ 1` workers (`num_threads` is an `int`), any number of other threads and any tasks: no run
without `Cancel` leaves a task in a queue while all workers sleep. -/
theorem no_lost_task (hn : 1 ≤ cfg.mNumThreads) (hn' : cfg.mNumThreads < 2 ^ 31)
    (hs : (sys cfg).Reach Any s) : ¬ Lost cfg s := by
  intro hlost
  obtain ⟨q, hq, hne⟩ := hlost.task
  obtain ⟨j, hj⟩ := List.mem_iff_getElem?.mp hq
  have hm := reach_matches hs
  rcases reach_watched hn hn' hs j q hj hne with ⟨w, hw, th, ht, hseen⟩ | ⟨th, ht, ha⟩ | ⟨u, hu⟩
  · obtain ⟨y, hy, hp, -⟩ := hlost.parked w hw
    obtain rfl := Option.some.inj (hy.symm.trans ht)
    exact hseen (by rw [hp]; trivial)
  · refine hlost.outside th ht ?_
    cases hp : th.pc <;> rw [hp] at ha <;> first | exact ha.elim | trivial
  · have hrole : s.roles u ≠ .free := by
      rcases Finset.mem_union.mp (hm.wf.notified hu) with h | h
      · rw [(hm.pre u).mp h]
        simp
      · rw [(hm.blocked u).mp h]
        simp
    unfold St.roles at hrole
    cases ht : s.threads[u]? with
    | none =>
      rw [ht] at hrole
      exact hrole rfl
    | some th =>
      rw [ht] at hrole
      have hlt : u < cfg.mNumThreads :=
        ((reach_threads hs).each u th ht).worker (Pc.workers_of_role hrole)
      obtain ⟨-, -, -, hnot⟩ := hlost.parked u hlt
      exact hnot hu

/-- Two workers of a `NonBlockingWorkQueue`, and one other thread. -/
def two : Config := ⟨.nonBlockingWorkQueue, 2, 1, true⟩

/-- The worker 0 enters the spin loop, the worker 1 parks, and the other thread submits a task without
a notification. -/
def twoLabels : List Label :=
  let c : Choice := ⟨0, true, none⟩
  List.replicate 7 (.move 0 c) ++ List.replicate 13 (.move 1 c) ++
    [.addTask 2 false c, .move 2 c, .move 2 c, .move 2 c]

/-- The state after `twoLabels`. -/
def twoState : St := (runLabels (step two) (init two) twoLabels).getD (init two)

theorem no_lost_task_two : (twoState.threads.map fun th => th.pc) =
    [.spin 0 none, .parked, .run] ∧ twoState.queues = [[0], []] ∧ ¬ Lost two twoState :=
  ⟨by decide +kernel, by decide +kernel, no_lost_task (by decide) (by decide)
    (reach_runLabels (fun _ => True) (.init rfl) twoLabels (fun _ _ => trivial) (by decide +kernel))⟩

end WorkQueue

end AsyncLib
