import AsyncLib.Concurrent.WorkQueueSteps

/-!
# The invariants of the workers

* `Threads`: the queues and threads are those of the start, and what is known of a thread where it is
  (`Thread.Ok`).
* `mem_emptyVictims`: the walk of `NonEmptyQueueIndex` meets every queue.
* `Matches`: the event count knows which threads wait.
* `reach_spinning`: the spinning state and the threads are a state of `Spinning`.
-/

namespace AsyncLib

namespace WorkQueue

open Sys Spinning

variable {cfg : Config} {s s' : St} {t j n : Nat} {th : Thread} {l : Label} {ok : St → Label → Prop}

/-! ## The threads -/

/-- What is known of the thread `t`. -/
structure Thread.Ok (n t : Nat) (th : Thread) : Prop where
  worker : th.pc.Workers → t < n
  calm : t < n → th.quiescing = false
  quiesces : th.pc.Quiesces → th.quiescing = true
  looking : th.pc.Looking → th.stack = []
  /-- A worker submits tasks only in a task. -/
  busy : t < n → ¬ th.pc.Looking → th.stack ≠ []

theorem Thread.Ok.goto (h : th.Ok n t) {pc : Pc} (hk : Keeps th.pc pc) : Ok n t { th with pc } where
  worker hw := h.worker (hk.workers hw)
  calm := h.calm
  quiesces hq := h.quiesces (hk.quiesces hq)
  looking hl := h.looking (hk.looking.mp hl)
  busy ht hl := h.busy ht fun hx => hl (hk.looking.mpr hx)

theorem Thread.Ok.exec (h : th.Ok n t) (x : Nat) :
    Ok n t { th with pc := .run, stack := x :: th.stack } where
  worker hw := hw.elim
  calm := h.calm
  quiesces hq := hq.elim
  looking hl := hl.elim
  busy _ _ := List.cons_ne_nil x _

/-- What a step of the thread `t` does to the threads. -/
structure Moved (cfg : Config) (s : St) (t : Nat) (th y : Thread) (s' : St) : Prop where
  threads : s'.threads = s.threads.set t y
  length : s'.queues.length = s.queues.length
  ok : th.Ok cfg.mNumThreads t → y.Ok cfg.mNumThreads t
  spins : Spins cfg.mNumThreads s t th.pc y.pc s'.mSpinningState

/-- The thread executes the same tasks as before. -/
theorem moved_goto {x pc : Pc} (hp : th.pc = x)
    (hthreads : s'.threads = s.threads.set t { th with pc }) (hk : Keeps x pc)
    (hlen : s'.queues.length = s.queues.length)
    (hs : Spins cfg.mNumThreads s t x pc s'.mSpinningState) : ∃ y, Moved cfg s t th y s' := by
  subst hp
  exact ⟨_, hthreads, hlen, fun h => h.goto hk, hs⟩

theorem Moves.moved (h : Moves cfg s t th s') : ∃ y, Moved cfg s t th y s' := by
  cases h with
  | quiet hq hs => exact moved_goto rfl rfl hq.toKeeps rfl hs
  | exec _ _ _ _ _ hidle =>
    exact ⟨_, rfl, List.length_set, fun h => h.exec _, .refl hidle.spin.symm hidle.notify.symm⟩
  | hold _ _ hp => exact moved_goto hp rfl ⟨id, .rfl, id⟩ List.length_set (.refl rfl rfl)
  | release hp =>
    refine ⟨_, rfl, rfl, fun h => h.exec _, ?_⟩
    rw [hp]
    exact spins_stopCas _ rfl rfl
  | push _ _ _ _ hl hidle hpc =>
    rcases hpc with rfl | ⟨rfl, hw⟩
    · exact moved_goto rfl rfl ⟨fun h => h.elim, iff_of_false id hl, fun h => h.elim⟩ List.length_set
        (spins_notify hidle.spin hidle.notify)
    · exact moved_goto rfl rfl ⟨fun _ => hw, iff_of_false id hl, fun h => h.elim⟩ List.length_set
        (.refl hidle.spin.symm hidle.notify.symm)
  | inline _ _ hidle => exact ⟨_, rfl, rfl, fun h => h.exec _, .refl hidle.spin.symm hidle.notify.symm⟩
  | refuse hp | notify hp => exact moved_goto hp rfl ⟨id, .rfl, id⟩ rfl (.refl rfl rfl)
  | skip hp => exact moved_goto hp rfl ⟨id, .rfl, id⟩ rfl spins_notifyCas
  | prewait hp | cancelWait hp | cancelDone hp | take hp | park hp | wake hp | notifyDone hp =>
    exact moved_goto hp rfl ⟨id, .rfl, id⟩ rfl (.refl rfl rfl)
  | leave hp =>
    refine ⟨_, rfl, rfl, fun h => ?_, .refl (by rw [hp]; rfl) (by rw [hp]; rfl)⟩
    have hq : th.quiescing = true := h.quiesces (by rw [hp]; trivial)
    exact ⟨fun hw => hw.elim, fun _ => rfl, fun hq => hq.elim, fun hl => hl.elim,
      fun ht => absurd (h.calm ht) (by simp [hq])⟩

/-- The queues and the threads are those of the start. -/
structure Threads (cfg : Config) (s : St) : Prop where
  queues : s.queues.length = cfg.mNumThreads
  threads : s.threads.length = cfg.mNumThreads + cfg.numOutside
  each : Each (Thread.Ok cfg.mNumThreads) s.threads

theorem threads_init : Threads cfg (init cfg) where
  queues := List.length_replicate
  threads := by rw [init, List.length_append, List.length_replicate, List.length_replicate]
  each t th ht := by
    by_cases hlt : t < cfg.mNumThreads
    · rw [init, List.getElem?_append_left (by simpa using hlt), List.getElem?_replicate, if_pos hlt]
        at ht
      obtain rfl := Option.some.inj ht
      exact ⟨fun _ => hlt, fun _ => rfl, fun h => h.elim, fun _ => rfl, fun _ h => absurd trivial h⟩
    · rw [init, List.getElem?_append_right (by simpa using hlt)] at ht
      obtain rfl := List.eq_of_mem_replicate (List.mem_of_getElem? ht)
      exact ⟨fun h => h.elim, fun _ => rfl, fun h => h.elim, fun _ => rfl, fun h => absurd h hlt⟩

/-- One thread has moved. -/
theorem Threads.set (h : Threads cfg s) {y : Thread} (hy : y.Ok cfg.mNumThreads t)
    (hthreads : s'.threads = s.threads.set t y) (hlen : s'.queues.length = s.queues.length) :
    Threads cfg s' :=
  ⟨hlen.trans h.queues, by rw [hthreads, List.length_set]; exact h.threads,
    hthreads ▸ h.each.set fun _ => hy⟩

theorem Thread.Ok.submit (h : th.Ok cfg.mNumThreads t) (hp : th.pc = .run) (q : Bool) (r : UInt32)
    (x : Nat) : Ok cfg.mNumThreads t { th with pc := submit cfg t q r x } := by
  have hl : ¬ (WorkQueue.submit cfg t q r x).Looking ∧ ¬ (WorkQueue.submit cfg t q r x).Quiesces ∧
      ((WorkQueue.submit cfg t q r x).Workers → t < cfg.mNumThreads) := by
    unfold WorkQueue.submit
    split
    · split
      · rename_i hlt
        exact ⟨id, id, fun _ => hlt⟩
      · exact ⟨id, id, fun h => h.elim⟩
    · exact ⟨id, id, fun h => h.elim⟩
  exact ⟨hl.2.2, h.calm, fun hq => absurd hq hl.2.1, fun hq => absurd hq hl.1,
    fun ht _ => h.busy ht (by rw [hp]; exact id)⟩

theorem Thread.Ok.resume (h : th.Ok cfg.mNumThreads t) (r : UInt32) (rest : List Nat) :
    Ok cfg.mNumThreads t ⟨resume cfg t th.quiescing r rest, rest, th.quiescing⟩ := by
  unfold WorkQueue.resume
  split
  · rename_i hr
    exact ⟨fun h => h.elim, h.calm, fun h => h.elim, fun h => h.elim, fun _ _ => hr⟩
  · rename_i hr
    have hnil : rest = [] := not_not.mp hr
    split
    · rename_i hlt
      exact ⟨fun _ => hlt, h.calm, fun h => h.elim, fun _ => hnil, fun _ h => absurd trivial h⟩
    · rename_i hlt
      split
      · rename_i hq
        exact ⟨fun h => h.elim, h.calm, fun _ => hq, fun _ => hnil, fun ht => absurd ht hlt⟩
      · exact ⟨fun h => h.elim, h.calm, fun h => h.elim, fun h => h.elim, fun ht => absurd ht hlt⟩

theorem Threads.step (h : Threads cfg s) (hs : Steps cfg s l s') : Threads cfg s' := by
  cases hs with
  | move ht hm =>
    obtain ⟨y, hy⟩ := hm.moved
    exact h.set (hy.ok (h.each _ _ ht)) hy.threads hy.length
  | addTask ht hp => exact h.set ((h.each _ _ ht).submit hp _ _ _) rfl rfl
  | finish ht hp => exact h.set ((h.each _ _ ht).resume _ _) rfl rfl
  | @quiesce t c th ht hp hst =>
    have hlt : ¬ t < cfg.mNumThreads := fun hlt => (h.each _ _ ht).busy hlt (by rw [hp]; exact id) hst
    have hok : Thread.Ok cfg.mNumThreads t ⟨.steal .quiesce (cfg.stealVictims c.r), [], true⟩ :=
      ⟨fun h => h.elim, fun ht => absurd ht hlt, fun _ => rfl, fun _ => rfl, fun ht => absurd ht hlt⟩
    exact h.set hok rfl rfl
  | destroy => exact ⟨h.queues, h.threads, h.each⟩
  | notifyAll => exact ⟨h.queues, h.threads, h.each⟩

theorem reach_threads (hs : (sys cfg).Reach ok s) : Threads cfg s :=
  hs.invariant (fun s h => by cases h; exact threads_init) fun _ _ _ hi _ h => hi.step (step_steps h)

theorem idle_init (hm : th ∈ (init cfg).threads) : Idle th.pc := by
  rcases List.mem_append.mp hm with hm | hm <;> rw [List.eq_of_mem_replicate hm]
  · exact ⟨rfl, id, id, rfl, rfl⟩
  · exact idle_run

/-- What is said of a thread, in the beginning. -/
theorem elim_init {β : Type} {d : β} {f : Thread → β} (h : ∀ th, Idle th.pc → f th = d) (u : Nat) :
    ((init cfg).threads[u]?).elim d f = d := by
  cases hu : (init cfg).threads[u]? with
  | none => rfl
  | some th => exact h th (idle_init (List.mem_of_getElem? hu))

/-! ## The queues -/

/-- A queue that is not empty after a pop was not empty before. -/
theorem nonempty_of_set {qs : List (List Nat)} {i x : Nat} {q rest q' : List Nat}
    (hi : qs[i]? = some q) (hperm : q.Perm (x :: rest)) (hj : (qs.set i rest)[j]? = some q')
    (hne : q' ≠ []) : ∃ q, qs[j]? = some q ∧ q ≠ [] := by
  by_cases hij : i = j
  · subst hij
    exact ⟨q, hi, fun hq => by simp [hq] at hperm⟩
  · rw [List.getElem?_set_ne hij] at hj
    exact ⟨q', hj, hne⟩

/-- `NonEmptyQueueIndex` asks every queue if it finds nothing. -/
theorem mem_emptyVictims (hn : 1 ≤ cfg.mNumThreads) (hn' : cfg.mNumThreads < 2 ^ 31)
    {r : UInt32} (hj : j < cfg.mNumThreads) : j ∈ cfg.emptyVictims r := by
  obtain ⟨inc, -, hperm, hwalk⟩ := WorkQueueBase.nonEmptyQueueIndex_walk hn hn' r.toNat_lt
  obtain ⟨answer, hw, -⟩ := hwalk fun _ _ => true
  have hnone : answer = none := hw.none_iff.mpr fun _ _ _ => if_pos rfl
  rw [Config.emptyVictims, hw.whole hnone]
  exact hperm.mem_iff.mpr (List.mem_range.mpr hj)

/-! ## The event count -/

/-- How each thread stands to the event count. -/
def St.roles (s : St) (u : Nat) : Role := (s.threads[u]?).elim .free fun th => th.pc.role

/-- The event count knows which threads wait. -/
structure Matches (w : EventCount.Waiting) (roles : Nat → Role) : Prop where
  wf : w.Wf
  pre : ∀ u, u ∈ w.pre ↔ roles u = .pre
  blocked : ∀ u, u ∈ w.blocked ↔ roles u = .blocked

/-- The roles after an operation of the event count. -/
def rolesAfter (roles : Nat → Role) : EventCount.Event → Nat → Role
  | .prewait t => Function.update roles t .pre
  | .cancel t | .take t | .wake t => Function.update roles t .free
  | .park t => Function.update roles t .blocked
  | .notify _ => roles

theorem Matches.step {w w' : EventCount.Waiting} {roles : Nat → Role} {takeover : Bool}
    {e : EventCount.Event} (h : Matches w roles) (hs : w.Step takeover e w') :
    Matches w' (rolesAfter roles e) := by
  have hdis : ∀ u, u ∈ w.pre → u ∉ w.blocked := fun u h1 h2 =>
    Finset.disjoint_left.mp h.wf.disjoint h1 h2
  refine ⟨EventCount.Waiting.Step.wf hs h.wf, fun u => ?_, fun u => ?_⟩
  · have hu := h.pre u
    cases hs <;> simp only [rolesAfter, Function.update_apply, Finset.mem_insert, Finset.mem_erase] <;>
      grind
  · have hu := h.blocked u
    cases hs <;> simp only [rolesAfter, Function.update_apply, Finset.mem_insert, Finset.mem_erase] <;>
      grind

theorem roles_set {y : Thread} (ht : s.threads[t]? = some th)
    (hthreads : s'.threads = s.threads.set t y) :
    s'.roles = Function.update s.roles t y.pc.role := by
  funext u
  rw [St.roles, hthreads]
  exact congrFun (elim_set ht) u

theorem roles_self (ht : s.threads[t]? = some th) : s.roles t = th.pc.role := by
  rw [St.roles, ht]
  rfl

/-- The thread `t` moves to a point with the same role. -/
theorem roles_keep {y : Thread} (ht : s.threads[t]? = some th)
    (hthreads : s'.threads = s.threads.set t y) (hrole : y.pc.role = th.pc.role) :
    s'.roles = s.roles := by
  rw [roles_set ht hthreads, hrole, ← roles_self ht, Function.update_eq_self]

/-- A step that leaves the event count alone. -/
theorem Matches.keep {y : Thread} (h : Matches s.mEventCount s.roles) (ht : s.threads[t]? = some th)
    (hthreads : s'.threads = s.threads.set t y) (hrole : y.pc.role = th.pc.role)
    (hw : s'.mEventCount = s.mEventCount) : Matches s'.mEventCount s'.roles := by
  rw [hw, roles_keep ht hthreads hrole]
  exact h

/-- An operation of the event count. -/
theorem Matches.event {y : Thread} {e : EventCount.Event} {w : EventCount.Waiting}
    (h : Matches s.mEventCount s.roles) (hs : s.mEventCount.Step cfg.takeover e w)
    (ht : s.threads[t]? = some th) (hthreads : s'.threads = s.threads.set t y)
    (hw : s'.mEventCount = w)
    (hroles : rolesAfter s.roles e = Function.update s.roles t y.pc.role) :
    Matches s'.mEventCount s'.roles := by
  rw [hw, roles_set ht hthreads, ← hroles]
  exact h.step hs

/-- A notification. -/
theorem Matches.notify {y : Thread} {all : Bool} {w : EventCount.Waiting}
    (h : Matches s.mEventCount s.roles) (hs : s.mEventCount.Step cfg.takeover (.notify all) w)
    (ht : s.threads[t]? = some th) (hthreads : s'.threads = s.threads.set t y)
    (hw : s'.mEventCount = w) (hrole : y.pc.role = th.pc.role) :
    Matches s'.mEventCount s'.roles := by
  refine h.event hs ht hthreads hw ?_
  rw [hrole, ← roles_self ht, Function.update_eq_self]
  rfl

theorem Moves.roles (hm : Moves cfg s t th s') (ht : s.threads[t]? = some th)
    (h : Matches s.mEventCount s.roles) : Matches s'.mEventCount s'.roles := by
  cases hm with
  | quiet hq => exact h.keep ht rfl hq.role rfl
  | exec _ _ _ _ _ hidle | inline _ _ hidle => exact h.keep ht rfl hidle.role.symm rfl
  | hold _ _ hp | release hp | refuse hp | skip hp | leave hp =>
    exact h.keep ht rfl (by rw [hp]; rfl) rfl
  | push _ _ _ _ _ hidle hpc =>
    refine h.keep ht rfl ?_ rfl
    rw [hidle.role]
    rcases hpc with rfl | ⟨rfl, -⟩ <;> rfl
  | prewait _ hw | cancelWait _ hw | cancelDone _ hw | take _ hw | park _ hw | wake _ hw =>
    exact h.event hw ht rfl rfl rfl
  | notifyDone hp hw | notify hp hw => exact h.notify hw ht rfl rfl (by rw [hp]; rfl)

theorem reach_matches (hs : (sys cfg).Reach ok s) : Matches s.mEventCount s.roles := by
  refine hs.invariant (I := fun s => Matches s.mEventCount s.roles) (fun s hs => ?_)
    fun s l s' hi _ hs => ?_
  · cases hs
    have hfree : ∀ u, (init cfg).roles u = .free := elim_init fun th h => h.role
    refine ⟨⟨by simp [init], by simp [init]⟩, fun u => ?_, fun u => ?_⟩ <;> rw [hfree u] <;> simp [init]
  · cases step_steps hs with
    | move ht hm => exact hm.roles ht hi
    | addTask ht hp => exact hi.keep ht rfl ((idle_submit _ _ _ _ _).role.trans (by rw [hp]; rfl)) rfl
    | finish ht hp => exact hi.keep ht rfl ((idle_resume _ _ _ _ _).1.role.trans (by rw [hp]; rfl)) rfl
    | quiesce ht hp => exact hi.keep ht rfl (by rw [hp]; rfl) rfl
    | destroy => exact hi
    | notifyAll hw => exact hi.step hw

/-! ## The spinning state -/

/-- The state of `Spinning`, but for its record. -/
def St.spinning (s : St) (log : Spinning.Log) : Spinning.St where
  mSpinningState := s.mSpinningState
  pc u := (s.threads[u]?).elim .idle fun th => th.pc.spinPc
  npc u := (s.threads[u]?).elim .idle fun th => th.pc.notifyPc
  log := log

theorem spinning_self (ht : s.threads[t]? = some th) (log : Spinning.Log) :
    (s.spinning log).pc t = th.pc.spinPc ∧ (s.spinning log).npc t = th.pc.notifyPc := by
  simp only [St.spinning, ht, Option.elim_some, and_self]

/-- A step between two points that say nothing. -/
theorem Idle.spins {x y : Pc} (hx : Idle x) (hp : th.pc = x) (hy : Idle y) :
    Spins n s t th.pc y s.mSpinningState :=
  .refl (by rw [hp, hx.spin, hy.spin]) (by rw [hp, hx.notify, hy.notify])

/-- One step of a thread is a step of `Spinning`. -/
theorem spinning_step {y : Thread} {log : Spinning.Log} (h : Threads cfg s)
    (ht : s.threads[t]? = some th) (hthreads : s'.threads = s.threads.set t y)
    (hs : Spins cfg.mNumThreads s t th.pc y.pc s'.mSpinningState)
    (hr : (Spinning.sys cfg.mNumThreads).Reach Any (s.spinning log)) :
    ∃ log', (Spinning.sys cfg.mNumThreads).Reach Any (s'.spinning log') := by
  obtain ⟨hpc, hn⟩ := spinning_self ht log
  obtain ⟨σ, hstep, hw, hpc', hn'⟩ := hs (s.spinning log) rfl hpc hn (h.each _ _ ht).worker
  have hσ : s'.spinning σ.log = σ := by
    have e1 : (s'.spinning σ.log).pc = σ.pc := by
      rw [hpc', St.spinning]
      simp only [hthreads]
      exact elim_set ht
    have e2 : (s'.spinning σ.log).npc = σ.npc := by
      rw [hn', St.spinning]
      simp only [hthreads]
      exact elim_set ht
    obtain ⟨w, pc, npc, log⟩ := σ
    cases e1
    cases e2
    cases hw
    rfl
  refine ⟨σ.log, hσ.symm ▸ ?_⟩
  rcases hstep with rfl | ⟨l, hl⟩
  · exact hr
  · exact .step hr trivial hl

theorem reach_spinning (hs : (sys cfg).Reach ok s) :
    ∃ log, (Spinning.sys cfg.mNumThreads).Reach Any (s.spinning log) := by
  refine hs.invariant_of
    (I := fun s => ∃ log, (Spinning.sys cfg.mNumThreads).Reach Any (s.spinning log))
    (fun s => reach_threads) (fun s hs => ?_) fun s l s' hth hi _ hs => ?_
  · cases hs
    refine ⟨⟨0, 0⟩, .init ?_⟩
    have hpc : ((init cfg).spinning ⟨0, 0⟩).pc = fun _ => .idle :=
      funext (elim_init fun th h => h.spin)
    have hnotify : ((init cfg).spinning ⟨0, 0⟩).npc = fun _ => .idle :=
      funext (elim_init fun th h => h.notify)
    have hword : ((init cfg).spinning ⟨0, 0⟩).mSpinningState = 0 := rfl
    have hlog : ((init cfg).spinning ⟨0, 0⟩).log = ⟨0, 0⟩ := rfl
    generalize (init cfg).spinning ⟨0, 0⟩ = σ at hpc hnotify hword hlog
    obtain ⟨w, pc, npc, log⟩ := σ
    cases hpc
    cases hnotify
    cases hword
    cases hlog
    rfl
  · obtain ⟨log, hr⟩ := hi
    cases step_steps hs with
    | move ht hm =>
      obtain ⟨y, hy⟩ := hm.moved
      exact spinning_step hth ht hy.threads hy.spins hr
    | addTask ht hp =>
      exact spinning_step hth ht rfl (idle_run.spins hp (idle_submit _ _ _ _ _)) hr
    | finish ht hp =>
      exact spinning_step hth ht rfl (idle_run.spins hp (idle_resume _ _ _ _ _).1) hr
    | quiesce ht hp =>
      exact spinning_step hth ht rfl (idle_run.spins hp ⟨rfl, id, id, rfl, rfl⟩) hr
    | destroy => exact ⟨log, hr⟩
    | notifyAll => exact ⟨log, hr⟩

end WorkQueue

end AsyncLib
