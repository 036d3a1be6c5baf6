import AsyncLib.Context.MultiThreadedSteps

/-!
# The invariants of `MultiThreadedWorkQueue`

* `Local`: what holds of one thread: a worker that looks for work has no task; a dynamic thread has tasks
  only while its own task runs; a call is made by a task, or by a thread of the program.
* `Threads`: `Local` for all threads, and the counters of the pools.
* `Claims`: a slot that is not filled was claimed by a call that is under way.
* `Tasks`: every task is in one place (`St.load`), and `mNumPendingTasks` counts the counted ones.
-/

namespace AsyncLib

namespace MultiThreadedWorkQueue

open Sys Thread

variable {cfg : Config} {s s' : St} {l : Label}

/-! ## One thread -/

/-- What holds of the thread `t`. -/
structure Local (cfg : Config) (d : BlockingWorkQueue.St) (quiesce : Quiescing) (mMutex : Option Nat)
    (t : Nat) (th : Thread) : Prop where
  home : th.home = cfg.home t
  free : th.pc ≠ .running → th.Free
  queue : (∀ p, th.home ≠ .worker p) → th.queue = []
  pc : (∀ p, th.home ≠ .worker p) → th.pc = .running
  dynamic : ∀ u, th.home = .dynamic u → ¬ th.Free → ∃ k, d.threads[u]? = some (.task k)
  caller : th.call ≠ none → th.stack ≠ [] ∨ th.home = .outside ∨ th.home = .main ∧ quiesce = .idle
  mutex : ∀ q x, th.call = some (.checked .runBlockingTask q x) → mMutex = some t
  /-- `Quiesce` executes tasks only while it steals. -/
  main : th.home = .main → quiesce ≠ .idle → (∀ p looping left, quiesce ≠ .steal p looping left) →
    th.Free

section Local

variable {d d' : BlockingWorkQueue.St} {quiesce quiesce' : Quiescing} {m m' : Option Nat} {t : Nat}
  {th : Thread}

theorem Local.setQueue (h : Local cfg d quiesce m t th) {queue : List Slot}
    (hq : (∀ p, th.home ≠ .worker p) → queue = []) : Local cfg d quiesce m t (th.setQueue queue) :=
  ⟨h.home, h.free, hq, h.pc, h.dynamic, h.caller, h.mutex, h.main⟩

theorem Local.running (h : Local cfg d quiesce m t th) (hfree : ¬ th.Free) : th.pc = .running := by
  by_contra hpc
  exact hfree (h.free hpc)

/-- The call goes on, or ends. -/
theorem Local.setCall (h : Local cfg d quiesce m t th) (hcall : th.call ≠ none) {call : Option Call}
    (hrun : ∀ q x, call = some (.checked .runBlockingTask q x) → m' = some t) :
    Local cfg d quiesce m' t (th.setCall call) := by
  have hbusy : ¬ th.Free := fun hf => hcall hf.2
  exact ⟨h.home, fun hpc => absurd (h.running hbusy) hpc, h.queue, h.pc,
    fun u hu _ => h.dynamic u hu hbusy, fun _ => h.caller hcall, hrun,
    fun hmain hidle hsteal => absurd (h.main hmain hidle hsteal) hbusy⟩

theorem Local.setPc (h : Local cfg d quiesce m t th) {p : Pool} (hhome : th.home = .worker p)
    (hfree : th.Free) (pc : Pc) : Local cfg d quiesce m t (th.setPc pc) :=
  ⟨h.home, fun _ => hfree, h.queue, fun hp => absurd hhome (hp p), h.dynamic, h.caller, h.mutex, h.main⟩

/-- The thread enters a call. -/
theorem Local.call (h : Local cfg d quiesce m t th)
    (hbusy : th.stack ≠ [] ∨ th.home = .outside ∨ th.home = .main ∧ quiesce = .idle)
    (hpc : th.pc = .running) {callee : Callee} {q : Bool} {x : Task}
    (hrun : callee = .runBlockingTask → m' = some t) :
    Local cfg d quiesce m' t (th.setCall (some (.checked callee q x))) := by
  refine ⟨h.home, fun hne => absurd hpc hne, h.queue, h.pc, fun u hu _ => ?_, fun _ => hbusy,
    fun q' x' hc => ?_, fun hmain hidle hsteal => ?_⟩
  · rcases hbusy with hs | ho | ⟨hmain, -⟩
    · exact h.dynamic u hu fun hf => hs hf.1
    · rw [show th.home = .dynamic u from hu] at ho
      cases ho
    · rw [show th.home = .dynamic u from hu] at hmain
      cases hmain
  · cases hc
    exact hrun rfl
  · have hfree := h.main hmain hidle hsteal
    rcases hbusy with hs | ho | ⟨-, hq⟩
    · exact absurd hfree.1 hs
    · rw [show th.home = .main from hmain] at ho
      cases ho
    · exact absurd hq hidle

/-- The thread executes tasks, while `Quiesce` does not, or steals. -/
theorem Local.setStack (h : Local cfg d quiesce m t th) (stack : List Task) (hpc : th.pc = .running)
    (hcall : th.call = none)
    (hdyn : ∀ u, th.home = .dynamic u → stack ≠ [] → ∃ k, d'.threads[u]? = some (.task k))
    (hmain : th.home = .main → quiesce' ≠ .idle →
      (∀ p looping left, quiesce' ≠ .steal p looping left) → stack = []) :
    Local cfg d' quiesce' m t (th.setStack stack) := by
  refine ⟨h.home, fun hne => absurd hpc hne, h.queue, h.pc, fun u hu hbusy => ?_,
    fun hc => absurd hcall hc, h.mutex, fun hm hidle hsteal => ⟨hmain hm hidle hsteal, hcall⟩⟩
  exact hdyn u hu fun hs => hbusy ⟨hs, hcall⟩

/-- Another thread takes or releases the mutex. -/
theorem Local.setMutex (h : Local cfg d quiesce m t th) (hm : m = some t → m' = some t) :
    Local cfg d quiesce m' t th :=
  ⟨h.home, h.free, h.queue, h.pc, h.dynamic, h.caller, fun q x hq => hm (h.mutex q x hq), h.main⟩

theorem Local.setDynamic (h : Local cfg d quiesce m t th)
    (hd : ∀ u k, th.home = .dynamic u → ¬ th.Free → d.threads[u]? = some (.task k) →
      ∃ k, d'.threads[u]? = some (.task k)) : Local cfg d' quiesce m t th := by
  refine ⟨h.home, h.free, h.queue, h.pc, fun u hu hbusy => ?_, h.caller, h.mutex, h.main⟩
  obtain ⟨k, hk⟩ := h.dynamic u hu hbusy
  exact hd u k hu hbusy hk

/-- `Quiesce` goes on. -/
theorem Local.setQuiesce (h : Local cfg d quiesce m t th)
    (hmain : th.home = .main → th.Free ∨ ∃ p looping left, quiesce' = .steal p looping left)
    (hidle : quiesce' ≠ .idle → quiesce ≠ .idle ∨ (th.home = .main → th.Free)) :
    Local cfg d quiesce' m t th := by
  refine ⟨h.home, h.free, h.queue, h.pc, h.dynamic, fun hcall => ?_, h.mutex, fun hm _ hsteal => ?_⟩
  · rcases h.caller hcall with hs | ho | ⟨hm, hq⟩
    · exact .inl hs
    · exact .inr (.inl ho)
    · by_cases hq' : quiesce' = .idle
      · exact .inr (.inr ⟨hm, hq'⟩)
      · rcases hidle hq' with hne | hfree
        · exact absurd hq hne
        · exact absurd (hfree hm).2 hcall
  · rcases hmain hm with hfree | ⟨p, looping, left, hq⟩
    · exact hfree
    · exact absurd hq (hsteal p looping left)

end Local

/-! ## All threads -/

namespace Thread

/-- The thread is a worker of `p` that is counted in `mBlocked`. -/
def blockedIn (p : Pool) (th : Thread) : Bool := decide (th.home = .worker p ∧ th.pc = .blocked)

/-- The thread is a worker of `p`. -/
def worksFor (p : Pool) (th : Thread) : Bool := decide (th.home = .worker p)

end Thread

/-- The states of the threads, and the counters of the pools. -/
structure Threads (cfg : Config) (s : St) : Prop where
  each : Each (Local cfg s.dynamic s.quiesce s.mMutex) s.threads
  length : s.threads.length = cfg.first + s.dynamic.threads.length
  blocked : ∀ p, s.mBlocked p = s.threads.countP (Thread.blockedIn p)
  workers : ∀ p, s.threads.countP (Thread.worksFor p) = cfg.mNumThreads p
  dynamic : BlockingWorkQueue.Inv cfg.mMaxNumDynamicThreads s.dynamic
  given : s.given.length = s.dynamic.submitted
  quiescing : s.mNumQuiescing = if s.quiesce = .idle ∨ s.quiesce = .returned then 0 else 1

namespace Threads

/-- The counts of a pool after a step of the thread `t`. -/
theorem counts (p : Pool) {threads : List Thread} {t : Nat} {th : Thread} {f : Thread → Thread}
    (ht : threads[t]? = some th) (hhome : (f th).home = th.home) :
    (threads.modify t f).countP (Thread.worksFor p) = threads.countP (Thread.worksFor p) ∧
    (threads.modify t f).countP (Thread.blockedIn p) + (th.blockedIn p).toNat =
      threads.countP (Thread.blockedIn p) + ((f th).blockedIn p).toNat := by
  have hw := countP_modify (p := Thread.worksFor p) (f := f) ht
  have hb := countP_modify (p := Thread.blockedIn p) (f := f) ht
  refine ⟨?_, hb⟩
  rw [show (f th).worksFor p = th.worksFor p by rw [worksFor, hhome, worksFor]] at hw
  omega

/-- The counters, after a step of the thread `t` which neither blocks nor wakes up. -/
theorem counts_modify (h : Threads cfg s) {t : Nat} {f : Thread → Thread}
    (hhome : ∀ th, (f th).home = th.home)
    (hpc : ∀ th, s.threads[t]? = some th → ((f th).pc = .blocked ↔ th.pc = .blocked)) :
    (s.threads.modify t f).length = cfg.first + s.dynamic.threads.length ∧
    (∀ p, s.mBlocked p = (s.threads.modify t f).countP (Thread.blockedIn p)) ∧
    ∀ p, (s.threads.modify t f).countP (Thread.worksFor p) = cfg.mNumThreads p := by
  refine ⟨by rw [List.length_modify, h.length], fun p => ?_, fun p => ?_⟩
  · cases ht : s.threads[t]? with
    | none =>
      rw [List.modify_eq_self (List.getElem?_eq_none_iff.mp ht)]
      exact h.blocked p
    | some th =>
      have hb := (counts p (f := f) ht (hhome th)).2
      rw [show (f th).blockedIn p = th.blockedIn p by
        rw [blockedIn, blockedIn, hhome, decide_eq_decide, hpc th ht]] at hb
      have := h.blocked p
      omega
  · cases ht : s.threads[t]? with
    | none =>
      rw [List.modify_eq_self (List.getElem?_eq_none_iff.mp ht)]
      exact h.workers p
    | some th =>
      rw [(counts p (f := f) ht (hhome th)).1]
      exact h.workers p

/-- A step of the thread `t` which neither blocks nor wakes up. -/
theorem modify (h : Threads cfg s) {t : Nat} {f : Thread → Thread}
    (hf : ∀ th, s.threads[t]? = some th → Local cfg s.dynamic s.quiesce s.mMutex t (f th))
    (hhome : ∀ th, (f th).home = th.home)
    (hpc : ∀ th, s.threads[t]? = some th → ((f th).pc = .blocked ↔ th.pc = .blocked)) :
    Threads cfg (s.modify t f) := by
  obtain ⟨hlen, hb, hw⟩ := h.counts_modify hhome hpc
  exact ⟨h.each.modify hf, hlen, hb, hw, h.dynamic, h.given, h.quiescing⟩

/-- The record of the tasks changes. -/
theorem record (h : Threads cfg s) (mNumPendingTasks submitted : Nat) (finished refused : List Nat) :
    Threads cfg { s with mNumPendingTasks, submitted, finished, refused } :=
  ⟨h.each, h.length, h.blocked, h.workers, h.dynamic, h.given, h.quiescing⟩

/-- The queue of the thread `j` changes. -/
theorem setQueue (h : Threads cfg s) {j : Nat} (f : List Slot → List Slot)
    (hf : ∀ v, s.threads[j]? = some v → (∀ p, v.home ≠ .worker p) → v.queue = [] → f v.queue = []) :
    Threads cfg (s.modify j fun v => v.setQueue (f v.queue)) :=
  h.modify (fun v hv => (h.each j v hv).setQueue fun hp => hf v hv hp ((h.each j v hv).queue hp))
    (fun _ => rfl) fun _ _ => Iff.rfl

end Threads

/-- The thread `t` after the queue of the thread `j` has changed. -/
theorem eq_setQueue {threads : List Thread} {j t : Nat} {f : Thread → List Slot} {th th' : Thread}
    (ht : threads[t]? = some th) (ht' : (threads.modify j fun v => v.setQueue (f v))[t]? = some th') :
    ∃ queue, th' = th.setQueue queue := by
  rw [List.getElem?_modify, ht] at ht'
  obtain ⟨th₀, h0, rfl⟩ := Option.map_eq_some_iff.mp ht'
  cases h0
  by_cases hjt : j = t
  · exact ⟨f th, by rw [if_pos hjt]⟩
  · exact ⟨th.queue, by rw [if_neg hjt]; rfl⟩

/-- The dynamic threads make a step in which no task returns. -/
theorem Threads.each_dynamic (h : Threads cfg s) {m : BlockingWorkQueue.Label} {d : BlockingWorkQueue.St}
    (hm : ∀ t, m ≠ .returnTask t)
    (hd : BlockingWorkQueue.step cfg.mMaxNumDynamicThreads s.dynamic m = some d) :
    Each (Local cfg d s.quiesce s.mMutex) s.threads :=
  h.each.mono fun _ _ _ hl => hl.setDynamic fun u k _ _ hk =>
    ⟨k, BlockingWorkQueue.task_step hk (hm u) hd⟩

/-- A step of the dynamic threads that starts none. -/
theorem Threads.setDynamic (h : Threads cfg s) {m : BlockingWorkQueue.Label} {d : BlockingWorkQueue.St}
    (hm : m ≠ .runBlockingTask)
    (hd : BlockingWorkQueue.step cfg.mMaxNumDynamicThreads s.dynamic m = some d)
    (heach : Each (Local cfg d s.quiesce s.mMutex) s.threads) : Threads cfg { s with dynamic := d } := by
  obtain ⟨hlen, hsub⟩ := BlockingWorkQueue.length_step hm hd
  exact ⟨heach, h.length.trans (by rw [hlen]), h.blocked, h.workers, h.dynamic.step hd,
    h.given.trans hsub.symm, h.quiescing⟩

namespace Threads

/-! ## The steps -/

theorem call (h : Threads cfg s) {t : Nat} {th : Thread} {callee : Callee} {q : Bool} {x : Task}
    (ht : s.threads[t]? = some th) (hc : Callable s th)
    (hm : callee = .runBlockingTask → s.mMutex = none) :
    Threads cfg { s.modify t (setCall (some (.checked callee q x))) with
      mMutex := if callee = .runBlockingTask then some t else s.mMutex } := by
  obtain ⟨hpc, -, hbusy⟩ := hc
  obtain ⟨hlen, hb, hw⟩ := h.counts_modify (t := t) (f := setCall (some (.checked callee q x)))
    (fun _ => rfl) fun _ _ => Iff.rfl
  have hkeep : ∀ u, s.mMutex = some u →
      (if callee = .runBlockingTask then some t else s.mMutex) = some u := by
    intro u hu
    split
    · rename_i hrun
      rw [hm hrun] at hu
      cases hu
    · exact hu
  refine ⟨h.each.modify_of (fun th' ht' => ?_) fun u _ _ _ hl => hl.setMutex (hkeep u), hlen, hb, hw,
    h.dynamic, h.given, h.quiescing⟩
  rw [ht] at ht'
  cases ht'
  exact (h.each t th ht).call hbusy hpc fun hrun => if_pos hrun

/-- The call of the thread `t` goes on, or ends. -/
theorem setCall (h : Threads cfg s) {t : Nat} {th : Thread} (call : Option Call)
    (ht : s.threads[t]? = some th) (hcall : th.call ≠ none)
    (hrun : ∀ q x, call = some (.checked .runBlockingTask q x) →
      ∃ q x, th.call = some (.checked .runBlockingTask q x)) :
    Threads cfg (s.modify t (Thread.setCall call)) := by
  refine h.modify (fun th' ht' => ?_) (fun _ => rfl) fun _ _ => Iff.rfl
  rw [ht] at ht'
  cases ht'
  refine (h.each t th ht).setCall hcall fun q x hc => ?_
  obtain ⟨q, x, hc⟩ := hrun q x hc
  exact (h.each t th ht).mutex q x hc

/-- A push: the queue of `j` grows, and the call of the thread `t` goes on. -/
theorem push (h : Threads cfg s) {t j : Nat} {th : Thread} (f : List Slot → List Slot)
    (call : Option Call) (ht : s.threads[t]? = some th) (hcall : th.call ≠ none)
    (hrun : ∀ q x, call ≠ some (.checked .runBlockingTask q x))
    (hf : (∀ p, cfg.home j ≠ .worker p) → f [] = []) :
    Threads cfg ((s.modify j fun v => v.setQueue (f v.queue)).modify t (Thread.setCall call)) := by
  have hq := h.setQueue (j := j) f fun v hv hp hnil => by
    rw [hnil]
    exact hf ((h.each j v hv).home ▸ hp)
  refine hq.modify (fun th' ht' => ?_) (fun _ => rfl) fun _ _ => Iff.rfl
  obtain ⟨queue, rfl⟩ := eq_setQueue ht ht'
  exact (hq.each t _ ht').setCall hcall fun q x hc => absurd hc (hrun q x)

/-- The thread `t` starts or ends a task. -/
theorem setStack (h : Threads cfg s) {t : Nat} (stack : List Task)
    (hstack : ∀ th, s.threads[t]? = some th → th.pc = .running ∧ th.call = none ∧
      (∀ u, th.home = .dynamic u → stack ≠ [] → ∃ k, s.dynamic.threads[u]? = some (.task k)) ∧
      (th.home = .main → s.quiesce ≠ .idle →
        (∀ p looping left, s.quiesce ≠ .steal p looping left) → stack = [])) :
    Threads cfg (s.modify t (Thread.setStack stack)) := by
  refine h.modify (fun th ht => ?_) (fun _ => rfl) fun _ _ => Iff.rfl
  obtain ⟨hpc, hcall, hdyn, hmain⟩ := hstack th ht
  exact (h.each t th ht).setStack stack hpc hcall hdyn hmain

/-- A task is taken from the queue of `j` by the thread `t`. -/
theorem take (h : Threads cfg s) {t j : Nat} {th v : Thread} {x : Task} {rest : List Slot}
    (ht : s.threads[t]? = some th) (hfree : th.Free) (hpc : th.pc = .running)
    (hv : s.threads[j]? = some v) (htake : Takes v.queue x rest)
    (hdyn : ∀ u, th.home ≠ .dynamic u)
    (hmain : th.home = .main → ∃ p looping left, s.quiesce = .steal p looping left) :
    Threads cfg ((s.modify j (Thread.setQueue rest)).modify t (Thread.setStack [x])) := by
  have hq := h.setQueue (j := j) (fun _ => rest) fun v' hv' _ hnil => by
    rw [hv] at hv'
    cases hv'
    have := htake.mem
    rw [hnil] at this
    cases this
  refine hq.setStack [x] fun th' ht' => ?_
  obtain ⟨queue, rfl⟩ := eq_setQueue ht ht'
  refine ⟨hpc, hfree.2, fun u hu => absurd hu (hdyn u), fun hm _ hsteal => ?_⟩
  obtain ⟨p, looping, left, hq⟩ := hmain hm
  exact absurd hq (hsteal p looping left)

theorem runBlockingTask (h : Threads cfg s) {t : Nat} {th : Thread} {q : Bool} {x : Task}
    {d : BlockingWorkQueue.St} (ht : s.threads[t]? = some th)
    (hcall : th.call = some (.checked .runBlockingTask q x))
    (hd : BlockingWorkQueue.step cfg.mMaxNumDynamicThreads s.dynamic .runBlockingTask = some d)
    (refused : List Nat) :
    Threads cfg { s.modify t (Thread.setCall none) with
      threads := (s.modify t (Thread.setCall none)).threads ++
        (List.range' s.dynamic.threads.length
          (d.threads.length - s.dynamic.threads.length)).map fun d => Thread.new (.dynamic d)
      dynamic := d
      given := s.given ++ [x]
      mMutex := none
      refused } := by
  have hd' := h.each_dynamic (m := .runBlockingTask) (by simp) hd
  have hs := h.setCall none ht (by simp [hcall]) fun q x hc => by cases hc
  have hlen : s.dynamic.threads.length ≤ d.threads.length ∧ d.submitted = s.dynamic.submitted + 1 := by
    cases hd
    unfold BlockingWorkQueue.runBlockingTask
    split
    · simp
    · split <;> simp
  have hnew : ∀ p : Thread → Bool, (∀ u, p (Thread.new (.dynamic u)) = false) →
      ((List.range' s.dynamic.threads.length (d.threads.length - s.dynamic.threads.length)).map
        fun d => Thread.new (.dynamic d)).countP p = 0 := by
    intro p hp
    simp [List.countP_eq_zero, hp]
  refine ⟨Each.append ?_ fun i y hy => ?_, ?_, fun p => ?_, fun p => ?_, h.dynamic.step hd, ?_,
    h.quiescing⟩
  · -- the call that ends is the one that held the mutex
    refine hd'.modify_of (fun th' ht' => ?_) fun u y hut hu hl => hl.setMutex fun hm => ?_
    · exact (hd' t th' ht').setCall (by
        rw [ht] at ht'
        cases ht'
        simp [hcall]) fun q x hc => by cases hc
    · rw [(h.each t th ht).mutex q x hcall] at hm
      exact absurd (Option.some.inj hm).symm hut
  · rw [List.getElem?_map] at hy
    obtain ⟨u, hu, rfl⟩ := Option.map_eq_some_iff.mp hy
    obtain ⟨hi, rfl⟩ := List.getElem?_eq_some_iff.mp hu
    rw [hs.length, List.getElem_range', Nat.one_mul]
    refine ⟨?_, fun _ => ⟨rfl, rfl⟩, fun _ => rfl, fun _ => rfl, fun _ _ hb => absurd ⟨rfl, rfl⟩ hb,
      fun hc => absurd rfl hc, nofun, fun hm => by cases hm⟩
    rw [Nat.add_assoc, Config.home_first]
    rfl
  · rw [List.length_append, List.length_map, List.length_range', hs.length]
    simp only [St.modify]
    omega
  · rw [List.countP_append, hnew _ fun u => by simp [blockedIn, Thread.new]]
    exact hs.blocked p
  · rw [List.countP_append, hnew _ fun u => by simp [worksFor, Thread.new]]
    exact hs.workers p
  · simp only [List.length_append, List.length_cons, List.length_nil, h.given]
    omega

/-- The last task of the thread `t` returns, and the dynamic thread knows it. -/
theorem finishDynamic (h : Threads cfg s) {t u : Nat} {th : Thread} {x : Task}
    {d : BlockingWorkQueue.St} (ht : s.threads[t]? = some th) (hstack : th.stack = [x])
    (hcall : th.call = none) (hhome : th.home = .dynamic u)
    (hd : BlockingWorkQueue.step cfg.mMaxNumDynamicThreads s.dynamic (.returnTask u) = some d) :
    Threads cfg { s.modify t (Thread.setStack []) with dynamic := d } := by
  have hpc := (h.each t th ht).running fun hf => by cases hstack.symm.trans hf.1
  have hs := h.setStack (t := t) [] fun th' ht' => by
    rw [ht] at ht'
    cases ht'
    exact ⟨hpc, hcall, fun _ _ hne => absurd rfl hne, fun _ _ _ => rfl⟩
  refine hs.setDynamic (by simp) hd (h.each.modify_of (fun th' ht' => ?_) fun w y hwt hw hl => ?_)
  · rw [ht] at ht'
    cases ht'
    exact (h.each t th ht).setStack [] hpc hcall (fun _ _ hne => absurd rfl hne) fun _ _ _ => rfl
  · refine hl.setDynamic fun u' k hu' _ hk => ⟨k, BlockingWorkQueue.task_step hk (fun he => ?_) hd⟩
    -- each dynamic thread has one position
    cases he
    have h1 := Config.home_dynamic ((h.each t th ht).home ▸ hhome)
    have h2 := Config.home_dynamic (hl.home ▸ hu')
    exact hwt (h2.trans h1.symm)

/-- A dynamic thread that is going to call its task has none. -/
theorem free_of_call (h : Threads cfg s) {u k : Nat} (hk : s.dynamic.threads[u]? = some (.call k)) :
    ∃ th, s.threads[cfg.first + u]? = some th ∧ th.home = .dynamic u ∧ th.Free := by
  have hlt := (List.getElem?_eq_some_iff.mp hk).1
  obtain ⟨th, ht⟩ : ∃ th, s.threads[cfg.first + u]? = some th :=
    ⟨_, List.getElem?_eq_getElem (by rw [h.length]; omega)⟩
  have hl := h.each _ th ht
  have hhome : th.home = .dynamic u := by rw [hl.home, Config.home_first]
  refine ⟨th, ht, hhome, ?_⟩
  by_contra hbusy
  obtain ⟨k', hk'⟩ := hl.dynamic u hhome hbusy
  cases hk.symm.trans hk'

theorem doWork (h : Threads cfg s) {u k : Nat} {x : Task} {d : BlockingWorkQueue.St}
    (hk : s.dynamic.threads[u]? = some (.call k))
    (hd : BlockingWorkQueue.step cfg.mMaxNumDynamicThreads s.dynamic (.call u) = some d) :
    Threads cfg { s.modify (cfg.first + u) (Thread.setStack [x]) with dynamic := d } := by
  have hd' := h.each_dynamic (m := .call u) (by simp) hd
  have htask : d.threads[u]? = some (.task k) := by
    simp only [BlockingWorkQueue.step, hk] at hd
    cases hd
    exact List.getElem?_set_self (List.getElem?_eq_some_iff.mp hk).1
  obtain ⟨th, ht, hhome, hfree⟩ := h.free_of_call hk
  obtain ⟨hlen, hb, hw⟩ := h.counts_modify (t := cfg.first + u) (f := Thread.setStack [x])
    (fun _ => rfl) fun _ _ => Iff.rfl
  obtain ⟨hl, hsub⟩ := BlockingWorkQueue.length_step (by simp) hd
  refine ⟨hd'.modify fun th' ht' => ?_, hlen.trans (by rw [hl]), hb, hw, h.dynamic.step hd,
    h.given.trans hsub.symm, h.quiescing⟩
  rw [ht] at ht'
  cases ht'
  have hl := h.each _ th ht
  refine hl.setStack [x] (hl.pc fun p hp => by rw [hhome] at hp; cases hp) hfree.2
    (fun u' hu' _ => ?_) fun hm => by rw [hhome] at hm; cases hm
  rw [hhome] at hu'
  cases hu'
  exact ⟨k, htask⟩

/-- A worker blocks or wakes up. -/
theorem setBlocked (h : Threads cfg s) {t n : Nat} {th : Thread} {p : Pool} {pc : Pc}
    (ht : s.threads[t]? = some th) (hhome : th.home = .worker p) (hfree : th.Free)
    (hn : n + (th.blockedIn p).toNat = s.mBlocked p + ((th.setPc pc).blockedIn p).toNat) :
    Threads cfg { s.modify t (Thread.setPc pc) with
      mBlocked := Function.update s.mBlocked p n } := by
  refine ⟨h.each.modify fun th' ht' => ?_, ?_, fun r => ?_, fun r => ?_, h.dynamic, h.given,
    h.quiescing⟩
  · rw [ht] at ht'
    cases ht'
    exact (h.each t th ht).setPc hhome hfree pc
  · rw [St.modify, List.length_modify]
    exact h.length
  · have hb := (counts r (f := Thread.setPc pc) ht rfl).2
    have := h.blocked r
    simp only [St.modify]
    by_cases hrp : r = p
    · subst hrp
      rw [Function.update_self]
      omega
    · have hne : ∀ pc, (th.setPc pc).blockedIn r = false := by
        intro pc
        simp only [blockedIn, Thread.setPc, hhome, Home.worker.injEq, Ne.symm hrp, false_and,
          decide_false]
      rw [Function.update_of_ne hrp]
      rw [hne, show th.blockedIn r = false from hne th.pc] at hb
      omega
  · rw [St.modify, (counts r (f := Thread.setPc pc) ht rfl).1]
    exact h.workers r

/-- `Quiesce` goes on. -/
theorem setQuiesce (h : Threads cfg s) {quiesce : Quiescing} {n : Nat}
    (hmain : ∀ th, s.threads[cfg.main]? = some th →
      th.Free ∨ ∃ p looping left, quiesce = .steal p looping left)
    (hidle : quiesce ≠ .idle → s.quiesce ≠ .idle ∨
      ∀ th, s.threads[cfg.main]? = some th → th.Free)
    (hn : n = if quiesce = .idle ∨ quiesce = .returned then 0 else 1) :
    Threads cfg { s with mNumQuiescing := n, quiesce } := by
  refine ⟨h.each.mono fun t th ht hl => ?_, h.length, h.blocked, h.workers, h.dynamic, h.given, hn⟩
  have hpos : th.home = .main → t = cfg.main := fun hm => Config.eq_main (hl.home ▸ hm)
  refine hl.setQuiesce (fun hm => hmain th (hpos hm ▸ ht)) fun hne => ?_
  rcases hidle hne with hq | hfree
  · exact .inl hq
  · exact .inr fun hm => hfree th (hpos hm ▸ ht)

/-- While `Quiesce` does not steal its thread is free. -/
theorem main_free (h : Threads cfg s) (hidle : s.quiesce ≠ .idle)
    (hsteal : ∀ p looping left, s.quiesce ≠ .steal p looping left) {th : Thread}
    (ht : s.threads[cfg.main]? = some th) : th.Free :=
  (h.each _ th ht).main ((h.each _ th ht).home.trans Config.home_main) hidle hsteal

theorem lookup (h : Threads cfg s) {j : Nat} {p : Pool} (hj : cfg.home j = .worker p) :
    ∃ v, s.threads[j]? = some v := by
  have hm := Config.mem_mThreadData.mpr hj
  refine ⟨_, List.getElem?_eq_getElem ?_⟩
  rw [h.length]
  simp only [Config.first, Config.main]
  cases p <;> simp only [Config.mThreadData, List.mem_range'_1] at hm <;> omega

/-- A push of the thread `t` goes to the queue of a worker. -/
theorem worker_of_pushesFront (h : Threads cfg s) {t j : Nat} {th : Thread} {callee : Callee}
    (ht : s.threads[t]? = some th) (hj : PushesFront cfg th.home t j callee) :
    ∃ p, cfg.home j = .worker p := by
  have hhome := (h.each t th ht).home
  cases callee with
  | addTask =>
    obtain ⟨hw, rfl⟩ := hj
    exact ⟨_, hhome.symm.trans hw⟩
  | enqueueBlockingTask =>
    simp only [PushesFront] at hj
    split at hj
    · rename_i hw
      exact ⟨_, hj ▸ hhome.symm.trans hw⟩
    · exact ⟨_, Config.mem_mThreadData.mp hj⟩
  | runBlockingTask => exact hj.elim

theorem step (h : Threads cfg s) (hs : Step cfg s l s') : Threads cfg s' := by
  cases hs with
  | call ht hc hm => exact (h.call ht hc hm).record _ _ _ _
  | @wrap _ t th callee x ht hcall hx =>
    refine (h.setCall (some (.checked callee true { x with counted := true })) ht
      (by simp [hcall]) fun q y hc => ?_).record _ _ _ _
    cases hc
    exact ⟨_, _, hcall⟩
  | @pushFront _ t j th callee q x ht hcall hx hj =>
    obtain ⟨p, hp⟩ := h.worker_of_pushesFront ht hj
    exact h.push (⟨x, false⟩ :: ·) (some (.claimed j x.id)) ht (by simp [hcall])
      (fun q x hc => by cases hc) fun hne => absurd hp (hne p)
  | @fill _ t j id th ht hcall =>
    exact h.push (List.map fun e => if e.task.id = id then { e with ready := true } else e) none
      ht (by simp [hcall]) (fun q x hc => by cases hc) fun _ => rfl
  | @pushBack _ t j th q x ht hcall hx hhome hj =>
    exact h.push (· ++ [⟨x, true⟩]) none ht (by simp [hcall]) (fun q x hc => by cases hc)
      fun hp => absurd (Config.mem_mThreadData.mp hj) (hp _)
  | @inline _ t th callee q x ht hcall hx hc =>
    have hl := h.each t th ht
    have hbusy : ¬ th.Free := fun hf => by cases hcall.symm.trans hf.2
    refine h.modify (fun th' ht' => ?_) (fun _ => rfl) fun _ _ => Iff.rfl
    rw [ht] at ht'
    cases ht'
    have hend : Local cfg s.dynamic s.quiesce s.mMutex t (th.setCall none) :=
      hl.setCall (by simp [hcall]) fun q x hc => by cases hc
    exact hend.setStack (x :: th.stack) (hl.running hbusy) rfl (fun u hu _ => hl.dynamic u hu hbusy)
      fun hm hidle hsteal => absurd (hl.main hm hidle hsteal) hbusy
  | refuse ht hcall hx =>
    exact (h.setCall none ht (by simp [hcall]) fun q x hc => by cases hc).record _ _ _ _
  | runBlockingTask ht hcall hx hd => exact h.runBlockingTask ht hcall hd _
  | @finish _ t th x rest ht hstack hcall hd =>
    have hl := h.each t th ht
    have hbusy : ¬ th.Free := fun hf => by cases hstack.symm.trans hf.1
    refine (h.setStack rest fun th' ht' => ?_).record _ _ _ _
    rw [ht] at ht'
    cases ht'
    exact ⟨hl.running hbusy, hcall, fun u hu _ => hl.dynamic u hu hbusy,
      fun hm hidle hsteal => absurd (hl.main hm hidle hsteal) hbusy⟩
  | finishDynamic ht hstack hcall hhome hd =>
    exact (h.finishDynamic ht hstack hcall hhome hd).record _ _ _ _
  | take ht hhome hfree hpc hv hj htake =>
    exact h.take ht hfree hpc hv htake (fun u hu => by rw [hhome] at hu; cases hu) fun hm => by
      rw [hhome] at hm
      cases hm
  | @look _ t th p pc ht hhome hfree hpc _ =>
    refine h.modify (fun th' ht' => ?_) (fun _ => rfl) fun th' ht' => ?_
    · rw [ht] at ht'
      cases ht'
      exact (h.each t th ht).setPc hhome hfree pc
    · rw [ht] at ht'
      cases ht'
      exact iff_of_false hpc.2 hpc.1
  | block ht hhome hfree hpc =>
    refine h.setBlocked ht hhome hfree ?_
    simp [blockedIn, hhome, hpc, Thread.setPc]
  | @wake _ t th p ht hhome hfree hpc =>
    refine h.setBlocked ht hhome hfree ?_
    have hpos : 0 < s.mBlocked p := by
      rw [h.blocked]
      exact List.countP_pos_iff.mpr ⟨th, List.mem_of_getElem? ht, by simp [blockedIn, hhome, hpc]⟩
    simp only [blockedIn, hhome, hpc, Thread.setPc, reduceCtorEq, and_self, and_false, decide_true,
      decide_false, Bool.toNat_true, Bool.toNat_false]
    omega
  | doWork hk hx hd => exact h.doWork hk hd
  | @dynamic _ m d hm hd =>
    have hne : ∀ t, m ≠ .returnTask t := fun t he => by
      rcases hm with ⟨d, rfl⟩ | ⟨d, timeout, rfl⟩ <;> cases he
    refine h.setDynamic ?_ hd (h.each_dynamic hne hd)
    rcases hm with ⟨d, rfl⟩ | ⟨d, timeout, rfl⟩ <;> simp
  | start ht hfree hq =>
    have hn := h.quiescing
    rw [if_pos (.inl hq)] at hn
    refine h.setQuiesce (fun _ _ => .inr ⟨_, _, _, rfl⟩) (fun _ => .inr fun th ht' => ?_) ?_
    · rw [ht] at ht'
      cases ht'
      exact hfree
    · rw [hn]
      rfl
  | @quiesceTake _ th v p looping left j x rest ht hfree hq hv htake =>
    have hl := h.each _ th ht
    have hhome := hl.home.trans Config.home_main
    have hn := h.quiescing
    rw [hq] at hn
    have hpc := hl.pc fun p hp => by rw [hhome] at hp; cases hp
    refine (h.take ht hfree hpc hv htake (fun u hu => by rw [hhome] at hu; cases hu) fun _ =>
      ⟨_, _, _, hq⟩).setQuiesce (fun _ _ => .inr ⟨_, _, _, rfl⟩) (fun _ => .inl ?_) hn
    simp [St.modify, hq]
  | quiescePass hq hv hpop =>
    have hn := h.quiescing
    rw [hq] at hn
    exact h.setQuiesce (fun _ _ => .inr ⟨_, _, _, rfl⟩) (fun _ => .inl (by simp [hq])) hn
  | @allBlocked _ th p looping ht hfree hq hb =>
    have hn := h.quiescing
    rw [hq] at hn
    refine h.setQuiesce (fun th' ht' => .inl ?_) (fun _ => .inl (by simp [hq])) ?_
    · rw [ht] at ht'
      cases ht'
      exact hfree
    · cases p <;> exact hn
  | stopWaiting hq hm hd =>
    have hn := h.quiescing
    rw [hq] at hn
    have hd' := h.setDynamic (by simp) hd (h.each_dynamic (by simp) hd)
    exact hd'.setQuiesce (fun th ht => .inl (h.main_free (by simp [hq]) (by simp [hq]) ht))
      (fun _ => .inl (by simp [hq])) hn
  | threadExited hq hd =>
    have hn := h.quiescing
    rw [hq] at hn
    have hd' := h.setDynamic (by simp) hd (h.each_dynamic (by simp) hd)
    exact hd'.setQuiesce (fun th ht => .inl (h.main_free (by simp [hq]) (by simp [hq]) ht))
      (fun _ => .inl (by simp [hq])) hn
  | returned hq hp =>
    have hn := h.quiescing
    rw [hq] at hn
    refine h.setQuiesce (fun th ht => .inl (h.main_free (by simp [hq]) (by simp [hq]) ht))
      (fun _ => .inl (by simp [hq])) ?_
    rw [hn]
    rfl
  | loop hq hp =>
    have hn := h.quiescing
    rw [hq] at hn
    exact h.setQuiesce (fun _ _ => .inr ⟨_, _, _, rfl⟩) (fun _ => .inl (by simp [hq])) hn
  | leave hq =>
    have hn := h.quiescing
    rw [hq] at hn
    exact h.setQuiesce (fun th ht => .inl (h.main_free (by simp [hq]) (by simp [hq]) ht))
      (fun hne => absurd rfl hne) hn

end Threads

end MultiThreadedWorkQueue

end AsyncLib
