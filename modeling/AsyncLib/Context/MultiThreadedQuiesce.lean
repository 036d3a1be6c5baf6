import AsyncLib.Context.MultiThreadedTasks
import Mathlib.Algebra.Order.BigOperators.Group.List
import Mathlib.Algebra.Order.Group.Nat

/-!
# What `MultiThreadedWorkQueue::Quiesce` leaves behind

* `Quiescing.rank`: how far the first pass over the pools has come. `Drained`: the threads that have no
  task any more that was submitted without a counter.
* `Quiet`: what holds of one thread while `Quiesce` runs. In the queue of a worker that has not looked for
  work since, such a task is either behind the counted ones and `Quiesce` is still going to find it, or
  the worker is going to see it (`Pc.Settled`).
* `Drain`: `Quiet` for all threads. `Drain.step`, `Drain.start`: the steps keep it, if no call from one
  pool to another is under way when `Quiesce` raises the flag.
* `quiesce_finished`: every task has finished when `Quiesce` returns. `not_quiesce_finished`: a run in
  which a blocking task adds a task while `Quiesce` raises the flag, and that task is not executed.
-/

namespace AsyncLib

namespace MultiThreadedWorkQueue

open Sys Thread

variable {cfg : Config} {s s' : St} {l : Label}

/-! ## The first pass -/

/-- How far the first pass of `Quiesce` over the pools has come. -/
def Quiescing.rank : Quiescing → Nat
  | .steal .nonBlocking false _ => 0
  | .steal .blocking false _ => 1
  | .stopWaiting false => 2
  | .threadExited false => 3
  | _ => 4

/-- The threads of this kind have no uncounted task any more. -/
def Drained (q : Quiescing) : Home → Prop
  | .worker .nonBlocking => 1 ≤ q.rank
  | .worker .blocking => 2 ≤ q.rank
  | .dynamic _ => 4 ≤ q.rank
  | _ => False

/-- In the first pass `Steal` has seen the queue `t` of the pool without a task. -/
def Passed (q : Quiescing) (p : Pool) (t : Nat) : Prop := ∃ left, q = .steal p false left ∧ t ∉ left

/-- All tasks in the queue are counted. -/
def Counted (queue : List Slot) : Prop := ∀ e ∈ queue, e.task.counted = true

/-- The uncounted tasks of the queue are behind the others, and `Steal` is going to find them. -/
def Sorted (passed : Prop) (queue : List Slot) : Prop :=
  ∃ A B, queue = A ++ B ∧ Counted A ∧ (∀ e ∈ B, e.ready = true) ∧ (passed → B = [])

/-- What holds of the thread `t` while `Quiesce` is at `q`. -/
structure Quiet (q : Quiescing) (t : Nat) (th : Thread) : Prop where
  outside : th.home = .outside → th.Free
  own : ∀ callee x, th.call = some (.checked callee false x) →
    (Call.checked callee false x).Own t th.home
  run : ∀ x, th.call = some (.checked .runBlockingTask false x) → q.rank ≤ 2
  call : Drained q th.home → ∀ callee x, th.call ≠ some (.checked callee false x)
  stack : Drained q th.home → ∀ x ∈ th.stack, x.counted = true
  queue : Drained q th.home → Counted th.queue
  sorted : ∀ p, th.home = .worker p → th.pc.Settled t → Sorted (Passed q p t) th.queue

section Quiet

variable {q q' : Quiescing} {t : Nat} {th : Thread} {passed passed' : Prop} {queue : List Slot}

theorem Sorted.of_counted (h : Counted queue) : Sorted passed queue :=
  ⟨queue, [], (List.append_nil _).symm, h, by simp, fun _ => rfl⟩

theorem Sorted.cons (h : Sorted passed queue) {e : Slot} (he : e.task.counted = true) :
    Sorted passed (e :: queue) := by
  obtain ⟨A, B, rfl, hA, hB, hpass⟩ := h
  refine ⟨e :: A, B, rfl, fun e' he' => ?_, hB, hpass⟩
  rcases List.mem_cons.mp he' with rfl | he'
  · exact he
  · exact hA e' he'

theorem Sorted.concat (h : Sorted passed queue) {e : Slot} (he : e.task.counted = true)
    (hr : e.ready = true) : Sorted passed (queue ++ [e]) := by
  obtain ⟨A, B, rfl, hA, hB, hpass⟩ := h
  by_cases hnil : B = []
  · subst hnil
    refine .of_counted fun e' he' => ?_
    rcases List.mem_append.mp he' with he' | he'
    · exact hA e' (by simpa using he')
    · rwa [List.mem_singleton.mp he']
  · refine ⟨A, B ++ [e], List.append_assoc .., hA, fun e' he' => ?_, fun hp => absurd (hpass hp) hnil⟩
    rcases List.mem_append.mp he' with he' | he'
    · exact hB e' he'
    · rwa [List.mem_singleton.mp he']

theorem Sorted.sublist (h : Sorted passed queue) {rest : List Slot} (hs : rest.Sublist queue) :
    Sorted passed rest := by
  obtain ⟨A, B, rfl, hA, hB, hpass⟩ := h
  obtain ⟨A', B', rfl, hA', hB'⟩ := List.sublist_append_iff.mp hs
  refine ⟨A', B', rfl, fun e he => hA e (hA'.subset he), fun e he => hB e (hB'.subset he), fun hp => ?_⟩
  rw [hpass hp] at hB'
  exact List.sublist_nil.mp hB'

/-- Filling slots changes neither the tasks nor the filled slots. -/
theorem Sorted.fill (h : Sorted passed queue) (id : Nat) :
    Sorted passed (queue.map fun e => if e.task.id = id then { e with ready := true } else e) := by
  obtain ⟨A, B, rfl, hA, hB, hpass⟩ := h
  refine ⟨_, _, List.map_append, fun e he => ?_, fun e he => ?_, fun hp => by rw [hpass hp, List.map_nil]⟩
  · obtain ⟨e₀, he₀, rfl⟩ := List.mem_map.mp he
    split
    · exact hA e₀ he₀
    · exact hA e₀ he₀
  · obtain ⟨e₀, he₀, rfl⟩ := List.mem_map.mp he
    split
    · rfl
    · exact hB e₀ he₀

/-- A queue in which a `PopBack` finds nothing has no uncounted task left. -/
theorem Sorted.pass (h : Sorted passed queue) (hpop : popBack queue = none) : Sorted passed' queue := by
  obtain ⟨A, B, rfl, hA, hB, -⟩ := h
  by_cases hnil : B = []
  · subst hnil
    rw [List.append_nil]
    exact .of_counted hA
  · have hlast : (A ++ B).getLast? = some (B.getLast hnil) := by
      rw [List.getLast?_append_of_ne_nil _ hnil, List.getLast?_eq_some_getLast hnil]
    have := popBack_eq_none hpop _ hlast
    rw [hB _ (List.getLast_mem hnil)] at this
    cases this

theorem Sorted.mono (h : Sorted passed queue) (hp : passed' → passed) : Sorted passed' queue := by
  obtain ⟨A, B, hq, hA, hB, hpass⟩ := h
  exact ⟨A, B, hq, hA, hB, fun h' => hpass (hp h')⟩

theorem Sorted.counted (h : Sorted passed queue) (hp : passed) : Counted queue := by
  obtain ⟨A, B, rfl, hA, -, hpass⟩ := h
  rw [hpass hp, List.append_nil]
  exact hA

/-- The call of the thread ends, or goes on with a counted task. -/
theorem Quiet.setCall (h : Quiet q t th) (call : Option Call) (hout : th.home ≠ .outside)
    (hcall : ∀ callee x, call ≠ some (.checked callee false x)) : Quiet q t (th.setCall call) :=
  ⟨fun ho => absurd ho hout, fun callee x hc => absurd hc (hcall callee x),
    fun x hc => absurd hc (hcall _ x), fun _ => hcall, h.stack, h.queue, h.sorted⟩

theorem Quiet.setStack (h : Quiet q t th) {stack : List Task} (hout : th.home ≠ .outside)
    (hstack : Drained q th.home → ∀ x ∈ stack, x.counted = true) : Quiet q t (th.setStack stack) :=
  ⟨fun ho => absurd ho hout, h.own, h.run, h.call, hstack, h.queue, h.sorted⟩

theorem Quiet.setQueue (h : Quiet q t th) (hq : Drained q th.home → Counted queue)
    (hs : ∀ p, th.home = .worker p → th.pc.Settled t → Sorted (Passed q p t) queue) :
    Quiet q t (th.setQueue queue) :=
  ⟨h.outside, h.own, h.run, h.call, h.stack, hq, hs⟩

theorem Quiet.setPc (h : Quiet q t th) {pc : Pc}
    (hs : pc.Settled t → th.pc.Settled t ∨ th.queue = []) : Quiet q t (th.setPc pc) := by
  refine ⟨h.outside, h.own, h.run, h.call, h.stack, h.queue, fun p hp hset => ?_⟩
  rcases hs hset with hset | hnil
  · exact h.sorted p hp hset
  · refine .of_counted fun e he => ?_
    rw [show (th.setPc pc).queue = [] from hnil] at he
    cases he

/-- `Quiesce` goes on. -/
theorem Quiet.advance (h : Quiet q t th)
    (hrun : ∀ x, th.call = some (.checked .runBlockingTask false x) → q'.rank ≤ 2)
    (hnew : Drained q' th.home → Drained q th.home ∨ th.Free ∧ Counted th.queue)
    (hpass : ∀ p, th.home = .worker p → th.pc.Settled t → Passed q' p t →
      Passed q p t ∨ popBack th.queue = none) : Quiet q' t th := by
  refine ⟨h.outside, h.own, hrun, fun hd callee x hc => ?_, fun hd x hx => ?_, fun hd => ?_,
    fun p hp hset => ?_⟩
  · rcases hnew hd with hd | ⟨hfree, -⟩
    · exact h.call hd callee x hc
    · cases hc.symm.trans hfree.2
  · rcases hnew hd with hd | ⟨hfree, -⟩
    · exact h.stack hd x hx
    · rw [hfree.1] at hx
      cases hx
  · rcases hnew hd with hd | ⟨-, hq⟩
    · exact h.queue hd
    · exact hq
  · by_cases hpassed : Passed q' p t
    · rcases hpass p hp hset hpassed with hp' | hpop
      · exact (h.sorted p hp hset).mono fun _ => hp'
      · exact (h.sorted p hp hset).pass hpop
    · exact (h.sorted p hp hset).mono fun hc => absurd hc hpassed

end Quiet

/-! ## All threads -/

/-- The thread of a run of `Quiesce`, between its first step and its return. -/
def Active (q : Quiescing) : Prop := q ≠ .idle ∧ q ≠ .returned

/-- While the queue is quiescing, nobody holds a task that is not counted. -/
structure Drain (s : St) : Prop where
  threads : Each (Quiet s.quiesce) s.threads
  /-- No uncounted task is handed over to the dynamic threads. -/
  waiting : 4 ≤ s.quiesce.rank → BlockingWorkQueue.due (gave (fun x => !x.counted) s.given) s.dynamic = 0

theorem Quiet.not_outside {q : Quiescing} {t : Nat} {th : Thread} (h : Quiet q t th)
    (hbusy : ¬ th.Free) : th.home ≠ .outside := fun ho => hbusy (h.outside ho)

theorem Drained.congr {q q' : Quiescing} (hr : q.rank = q'.rank) {home : Home} (h : Drained q home) :
    Drained q' home := by
  cases home with
  | worker p => cases p <;> simp only [Drained, ← hr] at h ⊢ <;> exact h
  | dynamic d => simpa only [Drained, ← hr] using h
  | main => exact h
  | outside => exact h

/-- Where `Steal` begins, no queue was passed. -/
theorem not_passed_full {p p' : Pool} {looping : Bool} {t : Nat} (ht : cfg.home t = .worker p') :
    ¬ Passed (.steal p looping (cfg.mThreadData p)) p' t := by
  rintro ⟨left, hq, hleft⟩
  cases hq
  exact hleft (Config.mem_mThreadData.mpr ht)

namespace Drain

/-- The queue of `j` loses the task `x`, which the thread `t` gets. -/
theorem take (h : Drain s) {t j : Nat} {th v : Thread} {x : Task} {rest : List Slot}
    (ht : s.threads[t]? = some th) (hout : th.home ≠ .outside) (hv : s.threads[j]? = some v)
    (htake : Takes v.queue x rest) (hhome : Drained s.quiesce th.home → v.home = th.home) :
    Each (Quiet s.quiesce) ((s.modify j (Thread.setQueue rest)).modify t (Thread.setStack [x])).threads := by
  have hq : Each (Quiet s.quiesce) (s.modify j (Thread.setQueue rest)).threads := by
    refine h.threads.modify fun v' hv' => ?_
    rw [hv] at hv'
    cases hv'
    have hl := h.threads j v hv
    exact hl.setQueue (fun hd e he => hl.queue hd e (htake.sublist.subset he)) fun p hp hset =>
      (hl.sorted p hp hset).sublist htake.sublist
  refine hq.modify fun th' ht' => ?_
  have hl := hq t th' ht'
  obtain ⟨queue, rfl⟩ := eq_setQueue (f := fun _ => rest) ht ht'
  refine hl.setStack hout fun hd y hy => ?_
  rw [List.mem_singleton.mp hy]
  exact (h.threads j v hv).queue (hhome hd ▸ hd) _ htake.mem

/-- The call of the thread `t` goes on, while the queue of `j` changes. -/
theorem push (h : Drain s) {t j : Nat} {th : Thread} (f : Thread → List Slot) (call : Option Call)
    (ht : s.threads[t]? = some th) (hbusy : ¬ th.Free)
    (hcall : ∀ callee x, call ≠ some (.checked callee false x))
    (hf : ∀ v, s.threads[j]? = some v → Quiet s.quiesce j v → Quiet s.quiesce j (v.setQueue (f v))) :
    Each (Quiet s.quiesce)
      ((s.modify j fun v => v.setQueue (f v)).modify t (Thread.setCall call)).threads := by
  have hq : Each (Quiet s.quiesce) (s.modify j fun v => v.setQueue (f v)).threads :=
    h.threads.modify fun v hv => hf v hv (h.threads j v hv)
  refine hq.modify fun th' ht' => ?_
  have hl := hq t th' ht'
  obtain ⟨queue, rfl⟩ := eq_setQueue ht ht'
  exact hl.setCall call ((h.threads t th ht).not_outside hbusy) hcall

theorem setCall (h : Drain s) {t : Nat} {th : Thread} (call : Option Call)
    (ht : s.threads[t]? = some th) (hout : th.home ≠ .outside)
    (hcall : ∀ callee x, call ≠ some (.checked callee false x)) :
    Each (Quiet s.quiesce) (s.modify t (Thread.setCall call)).threads := by
  refine h.threads.modify fun th' ht' => ?_
  rw [ht] at ht'
  cases ht'
  exact (h.threads t th ht).setCall call hout hcall

/-- When all workers of a pool are blocked after a pass over its queues, they are drained. -/
theorem blocked (h : Drain s) (hth : Threads cfg s) {p : Pool}
    (hq : s.quiesce = .steal p false []) (hb : s.mBlocked p = cfg.mNumThreads p) {t : Nat} {th : Thread}
    (ht : s.threads[t]? = some th) (hhome : th.home = .worker p) : th.Free ∧ Counted th.queue := by
  have hall : s.threads.countP (Thread.worksFor p) = s.threads.countP (Thread.blockedIn p) := by
    rw [hth.workers, ← hb, hth.blocked]
  have hblocked : th.pc = .blocked := by
    have := of_countP_eq (fun x _ hx => decide_eq_true (of_decide_eq_true hx).1) hall th
      (List.mem_of_getElem? ht) (decide_eq_true hhome)
    exact (of_decide_eq_true this).2
  refine ⟨(hth.each t th ht).free (by simp [hblocked]), ?_⟩
  have hl := h.threads t th ht
  refine (hl.sorted p hhome (by rw [hblocked]; trivial)).counted ⟨[], hq, by simp⟩

theorem step (h : Drain s) (hth : Threads cfg s) (hact : Active s.quiesce) (hok : OnlyTasks cfg s l)
    (hs : Step cfg s l s') (hact' : Active s'.quiesce) : Drain s' := by
  have hone : s.mNumQuiescing = 1 := by
    rw [hth.quiescing, if_neg (not_or.mpr hact)]
  have hbusy : ∀ {th : Thread} {call : Call}, th.call = some call → ¬ th.Free :=
    fun hcall hf => by cases hcall.symm.trans hf.2
  have hout : ∀ {t : Nat} {th : Thread}, s.threads[t]? = some th → ¬ th.Free → th.home ≠ .outside :=
    fun ht hb => (h.threads _ _ ht).not_outside hb
  -- a task that is handed over without a counter stays in the pool of its thread
  have hown : ∀ {t : Nat} {th : Thread} {callee : Callee} {b : Bool} {x : Task},
      s.threads[t]? = some th → th.call = some (.checked callee b x) → x.counted = b →
      x.counted = true ∨ ¬ Drained s.quiesce th.home ∧ (Call.checked callee false x).Own t th.home := by
    intro t th callee b x ht hcall hx
    cases b with
    | true => exact .inl hx
    | false =>
      have hl := h.threads t th ht
      exact .inr ⟨fun hd => hl.call hd callee x hcall, hl.own callee x hcall⟩
  cases hs with
  | @call t th callee ht hc hm =>
    have hhome : th.home ≠ .outside := by
      rw [(hth.each t th ht).home]
      exact hok hact.1
    have hq : s.isQuiescing = true := by
      rw [St.isQuiescing, hone]
      rfl
    exact ⟨h.setCall _ ht hhome (by simp [hq]), h.waiting⟩
  | @wrap _ t th callee x ht hcall hx =>
    exact ⟨h.setCall _ ht (hout ht (hbusy hcall)) (by simp), h.waiting⟩
  | @pushFront _ t j th callee b x ht hcall hx hj =>
    refine ⟨h.push (fun v => ⟨x, false⟩ :: v.queue) (some (.claimed j x.id)) ht (hbusy hcall) (by simp)
      fun v hv hl => ?_, h.waiting⟩
    rcases hown ht hcall hx with hc | ⟨hnd, how⟩
    · refine hl.setQueue (fun hd e he => ?_) fun p hp hset => (hl.sorted p hp hset).cons hc
      rcases List.mem_cons.mp he with rfl | he
      · exact hc
      · exact hl.queue hd e he
    · have hjt : j = t := by
        cases callee with
        | addTask => exact hj.2
        | enqueueBlockingTask =>
          simp only [PushesFront] at hj
          rwa [if_pos (show th.home = _ from how)] at hj
        | runBlockingTask => exact hj.elim
      subst hjt
      rw [ht] at hv
      cases hv
      refine hl.setQueue (fun hd => absurd hd hnd) fun p hp hset => ?_
      rw [(hth.each _ _ ht).running (hbusy hcall)] at hset
      exact hset.elim
  | @fill _ t j id th ht hcall =>
    refine ⟨h.push (j := j)
      (fun v => v.queue.map fun e : Slot => if e.task.id = id then { e with ready := true } else e)
      none ht (hbusy hcall) (by simp) fun v hv hl => ?_, h.waiting⟩
    refine hl.setQueue (fun hd e he => ?_) fun p hp hset => (hl.sorted p hp hset).fill id
    obtain ⟨e₀, he₀, rfl⟩ := List.mem_map.mp he
    split
    · exact hl.queue hd e₀ he₀
    · exact hl.queue hd e₀ he₀
  | @pushBack _ t j th b x ht hcall hx hhome hj =>
    refine ⟨h.push (j := j) (fun v => v.queue ++ [(⟨x, true⟩ : Slot)]) none ht (hbusy hcall) (by simp)
      fun v hv hl => ?_, h.waiting⟩
    have hc : x.counted = true := (hown ht hcall hx).resolve_right fun how => hhome how.2
    refine hl.setQueue (fun hd e he => ?_) fun p hp hset => (hl.sorted p hp hset).concat hc rfl
    rcases List.mem_append.mp he with he | he
    · exact hl.queue hd e he
    · rwa [List.mem_singleton.mp he]
  | @inline _ t th callee b x ht hcall hx hc =>
    refine ⟨h.threads.modify fun th' ht' => ?_, h.waiting⟩
    rw [ht] at ht'
    cases ht'
    have ho := hout ht (hbusy hcall)
    have hl := (h.threads t th ht).setCall none ho (by simp)
    refine hl.setStack ho fun hd y hy => ?_
    rcases List.mem_cons.mp hy with rfl | hy
    · exact (hown ht hcall hx).resolve_right fun how => how.1 hd
    · exact hl.stack hd y hy
  | @refuse _ t th callee b x ht hcall hx =>
    exact ⟨h.setCall _ ht (hout ht (hbusy hcall)) (by simp), h.waiting⟩
  | @runBlockingTask _ t th b x d ht hcall hx hd =>
    refine ⟨Each.append (h.setCall none ht (hout ht (hbusy hcall)) (by simp)) fun i y hy => ?_,
      fun hr => ?_⟩
    · obtain ⟨d, -, rfl⟩ := List.mem_map.mp (List.mem_of_getElem? hy)
      exact ⟨fun hh => (by cases hh), fun _ _ hc => (by cases hc), fun _ hc => (by cases hc),
        fun _ _ _ hc => (by cases hc), fun _ _ hx => absurd hx List.not_mem_nil,
        fun _ _ hx => absurd hx List.not_mem_nil, fun _ hh => by cases hh⟩
    · have hdue := due_given (q := fun x => !x.counted) (x := x) hth hd
      show BlockingWorkQueue.due _ d = 0
      rw [hdue, h.waiting hr]
      split
      · rename_i hacc
        have hb : b = true := by
          cases b with
          | true => rfl
          | false =>
            have := (h.threads t th ht).run x hcall
            have : 4 ≤ s.quiesce.rank := hr
            omega
        rw [hx, hb, hacc]
        rfl
      · rfl
  | @finish _ t th x rest ht hstack hcall hd =>
    have hb : ¬ th.Free := fun hf => by cases hstack.symm.trans hf.1
    refine ⟨h.threads.modify fun th' ht' => ?_, h.waiting⟩
    rw [ht] at ht'
    cases ht'
    have hl := h.threads t th ht
    exact hl.setStack (hout ht hb) fun hd y hy => hl.stack hd y (by simp [hstack, hy])
  | @finishDynamic _ t d th x dynamic ht hstack hcall hhome hd =>
    have hb : ¬ th.Free := fun hf => by cases hstack.symm.trans hf.1
    refine ⟨h.threads.modify fun th' ht' => ?_, fun hr => ?_⟩
    · rw [ht] at ht'
      cases ht'
      exact (h.threads t th ht).setStack (hout ht hb) fun _ y hy => by cases hy
    · exact (BlockingWorkQueue.due_step _ (by simp) (by simp) hd).trans (h.waiting hr)
  | @take _ t j th v p x rest ht hhome hfree hpc hv hj htake =>
    refine ⟨h.take ht (by simp [hhome]) hv htake fun _ => ?_, h.waiting⟩
    rcases hj with rfl | hj
    · rw [ht] at hv
      cases hv
      rfl
    · rw [hhome, (hth.each j v hv).home, Config.mem_mThreadData.mp hj]
  | @look _ t th p pc ht hhome hfree hpc hsettled =>
    refine ⟨h.threads.modify fun th' ht' => ?_, h.waiting⟩
    rw [ht] at ht'
    cases ht'
    exact (h.threads t th ht).setPc (hsettled
      (Config.mem_mThreadData.mpr ((hth.each t th ht).home ▸ hhome)))
  | @block _ t th p ht hhome hfree hpc =>
    refine ⟨h.threads.modify fun th' ht' => ?_, h.waiting⟩
    rw [ht] at ht'
    cases ht'
    exact (h.threads t th ht).setPc fun _ => .inl (by rw [hpc]; exact List.not_mem_nil)
  | @wake _ t th p ht hhome hfree hpc =>
    refine ⟨h.threads.modify fun th' ht' => ?_, h.waiting⟩
    rw [ht] at ht'
    cases ht'
    exact (h.threads t th ht).setPc False.elim
  | @doWork _ d k x dynamic hk hx hd =>
    refine ⟨h.threads.modify fun th ht => ?_, fun hr => ?_⟩
    · obtain ⟨th', ht', hhome, -⟩ := hth.free_of_call hk
      rw [ht] at ht'
      cases ht'
      refine (h.threads _ th ht).setStack (by simp [hhome]) fun hdr y hy => ?_
      rw [List.mem_singleton.mp hy]
      have hr : 4 ≤ s.quiesce.rank := by
        rw [hhome] at hdr
        exact hdr
      have := BlockingWorkQueue.due_call (gave (fun x => !x.counted) s.given) hk hd
      rw [h.waiting hr, gave, hx, Option.any_some] at this
      cases hc : x.counted with
      | true => rfl
      | false =>
        rw [hc, Bool.not_false, Bool.toNat_true] at this
        omega
    · have := BlockingWorkQueue.due_call (gave (fun x => !x.counted) s.given) hk hd
      rw [h.waiting hr] at this
      exact (Nat.add_eq_zero_iff.mp this).1
  | @dynamic _ m d hm hd =>
    refine ⟨h.threads, fun hr => ?_⟩
    rcases hm with ⟨u, rfl⟩ | ⟨u, timeout, rfl⟩
    · exact (BlockingWorkQueue.due_step _ (by simp) (by simp) hd).trans (h.waiting hr)
    · exact (BlockingWorkQueue.due_step _ (by simp) (by simp) hd).trans (h.waiting hr)
  | start ht hfree hq => exact absurd hq hact.1
  | @quiesceTake _ th v p looping left j x rest ht hfree hq hv htake =>
    have hhome := (hth.each _ th ht).home.trans Config.home_main
    have hrank : s.quiesce.rank = Quiescing.rank (.steal p looping (cfg.mThreadData p)) := by
      rw [hq]
      cases p <;> cases looping <;> rfl
    have htaken := h.take ht (by simp [hhome]) hv htake fun hd => by
      rw [hhome] at hd
      exact hd.elim
    have hth' := hth.take ht hfree ((hth.each _ th ht).pc fun p hp => by simp [hhome] at hp) hv htake
      (by simp [hhome]) fun _ => ⟨_, _, _, hq⟩
    refine ⟨htaken.mono fun t th ht hl => hl.advance (fun x hc => hrank ▸ hl.run x hc)
      (fun hd => .inl (hd.congr hrank.symm)) fun p' hp _ hpass => ?_, fun hr => h.waiting (hrank ▸ hr)⟩
    exact absurd hpass (not_passed_full ((hth'.each t th ht).home ▸ hp))
  | @quiescePass _ v p looping left j hq hv hpop =>
    have hrank : s.quiesce.rank = Quiescing.rank (.steal p looping (left.erase j)) := by
      rw [hq]
      cases p <;> cases looping <;> rfl
    refine ⟨h.threads.mono fun t th ht hl => hl.advance (fun x hc => hrank ▸ hl.run x hc)
      (fun hd => .inl (hd.congr hrank.symm)) fun p' hp _ hpass => ?_, fun hr => h.waiting (hrank ▸ hr)⟩
    obtain ⟨left', hq', hleft⟩ := hpass
    cases hq'
    by_cases htj : t = j
    · subst htj
      rw [ht] at hv
      cases hv
      exact .inr hpop
    · exact .inl ⟨left, hq, fun hm => hleft ((List.mem_erase_of_ne htj).mpr hm)⟩
  | @allBlocked _ th p looping ht hfree hq hb =>
    cases looping with
    | true =>
      have hrank : s.quiesce.rank = Quiescing.rank (afterPool cfg true p) := by
        rw [hq]
        cases p <;> rfl
      refine ⟨h.threads.mono fun t th ht hl => hl.advance (fun x hc => hrank ▸ hl.run x hc)
        (fun hd => .inl (hd.congr hrank.symm)) fun p' hp _ hpass => ?_, fun hr => h.waiting (hrank ▸ hr)⟩
      obtain ⟨left', hq', -⟩ := hpass
      cases p <;> cases hq'
    | false =>
      have hr4 : ¬ 4 ≤ Quiescing.rank (afterPool cfg false p) := by
        cases p <;> simp [afterPool, Quiescing.rank]
      refine ⟨h.threads.mono fun t th ht hl => hl.advance (fun x hc => ?_) (fun hd => ?_)
        fun p' hp _ hpass => ?_, fun hr => absurd hr hr4⟩
      · cases p <;> simp [afterPool, Quiescing.rank]
      · by_cases hp : th.home = .worker p
        · exact .inr (h.blocked hth hq hb ht hp)
        · rw [hq]
          cases hhome : th.home with
          | worker p' =>
            rw [hhome] at hd hp
            cases p <;> cases p' <;> simp_all [Drained, afterPool, Quiescing.rank]
          | dynamic d =>
            rw [hhome] at hd
            exact absurd hd hr4
          | main | outside =>
            rw [hhome] at hd
            exact hd.elim
      · refine absurd hpass ?_
        cases p with
        | nonBlocking => exact not_passed_full ((hth.each t th ht).home ▸ hp)
        | blocking =>
          rintro ⟨left', hq', -⟩
          cases hq'
  | @stopWaiting _ looping d hq hm hd =>
    have hfree : ∀ {t : Nat} {th : Thread} {x : Task}, s.threads[t]? = some th →
        th.call ≠ some (.checked .runBlockingTask false x) := by
      intro t th x ht hc
      have := (hth.each t th ht).mutex false x hc
      rw [hm] at this
      cases this
    have hdr : ∀ home, Drained (.threadExited looping) home → Drained s.quiesce home := by
      intro home
      rw [hq]
      cases looping with
      | true => exact Drained.congr rfl
      | false =>
        cases home with
        | worker p => cases p <;> simp [Drained, Quiescing.rank]
        | dynamic d => simp [Drained, Quiescing.rank]
        | main | outside => exact id
    refine ⟨h.threads.mono fun t th ht hl => hl.advance (fun x hc => absurd hc (hfree ht))
      (fun hd => .inl (hdr _ hd)) fun p hp _ hpass => ?_, fun hr => ?_⟩
    · obtain ⟨left', hq', -⟩ := hpass
      cases hq'
    · cases looping with
      | true =>
        exact (BlockingWorkQueue.due_step _ (by simp) (by simp) hd).trans
          (h.waiting (by rw [hq]; exact Nat.le_refl _))
      | false => exact absurd hr (by simp [Quiescing.rank])
  | @threadExited _ looping d hq hd =>
    obtain ⟨⟨-, h0⟩, heq⟩ := Option.ite_none_right_eq_some.mp hd
    have hrun : ∀ {t : Nat} {th : Thread} {x : Task}, s.threads[t]? = some th →
        th.call ≠ some (.checked .runBlockingTask false x) := by
      intro t th x ht hc
      have := (h.threads t th ht).run x hc
      rw [hq] at this
      cases looping <;> simp [Quiescing.rank] at this
    have hdyn : ∀ {t : Nat} {th : Thread} {u : Nat}, s.threads[t]? = some th → th.home = .dynamic u →
        th.Free ∧ Counted th.queue := by
      intro t th u ht hu
      have hl := hth.each t th ht
      refine ⟨?_, fun e he => ?_⟩
      · by_contra hb
        obtain ⟨k, hk⟩ := hl.dynamic u hu hb
        cases hth.dynamic.exited h0 _ (List.mem_of_getElem? hk)
      · rw [hl.queue (by simp [hu])] at he
        cases he
    refine ⟨h.threads.mono fun t th ht hl => hl.advance (fun x hc => absurd hc (hrun ht))
      (fun hdr => ?_) fun p hp _ hpass => ?_, fun _ => ?_⟩
    · cases hhome : th.home with
      | worker p =>
        refine .inl ?_
        rw [hq]
        cases p <;> cases looping <;> simp [Drained, Quiescing.rank]
      | dynamic u => exact .inr (hdyn ht hhome)
      | main | outside =>
        rw [hhome] at hdr
        exact hdr.elim
    · obtain ⟨left', hq', -⟩ := hpass
      cases hq'
    · exact (BlockingWorkQueue.due_step _ (by simp) (by simp) hd).trans (hth.dynamic.due_eq_zero h0 _)
  | returned hq hp => exact absurd rfl hact'.2
  | loop hq hp =>
    have hrank : s.quiesce.rank =
        Quiescing.rank (.steal .nonBlocking true (cfg.mThreadData .nonBlocking)) := by
      rw [hq]
      rfl
    refine ⟨h.threads.mono fun t th ht hl => hl.advance (fun x hc => hrank ▸ hl.run x hc)
      (fun hd => .inl (hd.congr hrank.symm)) fun p' hp _ hpass => ?_, fun hr => h.waiting (hrank ▸ hr)⟩
    obtain ⟨left', hq', -⟩ := hpass
    cases hq'
  | leave hq => exact absurd hq hact.2

/-- `Quiesce` raises the flag. -/
theorem start (hth : Threads cfg s) (hcl : Claims s.threads) {n : Nat}
    (hok : OnlyTasks cfg s .start) (hnone : NoneBetween s .start) :
    Drain { s with
      mNumQuiescing := n
      quiesce := .steal .nonBlocking false (cfg.mThreadData .nonBlocking) } := by
  have hnd : ∀ {home : Home} {left : List Nat}, ¬ Drained (.steal .nonBlocking false left) home := by
    intro home left hd
    cases home with
    | worker p => cases p <;> simp [Drained, Quiescing.rank] at hd
    | dynamic d => simp [Drained, Quiescing.rank] at hd
    | main | outside => exact hd
  refine ⟨fun t th ht => ?_, fun hr => absurd hr (by simp [Quiescing.rank])⟩
  refine ⟨hok th (List.mem_of_getElem? ht), fun callee x hc => hnone rfl t th _ ht hc,
    fun x _ => Nat.zero_le _, fun hd => absurd hd hnd, fun hd => absurd hd hnd,
    fun hd => absurd hd hnd, fun p hp hset => ⟨[], th.queue, rfl, by simp [Counted], fun e he => ?_,
    fun hpass => absurd hpass (not_passed_full ((hth.each t th ht).home ▸ hp))⟩⟩
  -- a slot that is not filled belongs to a call of the worker itself, which would not be settled
  cases hr : e.ready with
  | true => rfl
  | false =>
    obtain ⟨u, th', hu, hcall⟩ := hcl t th ht e he hr
    have htu : t = u := hnone rfl u th' _ hu hcall
    subst htu
    rw [ht] at hu
    cases hu
    have hfree := (hth.each t th ht).free fun hpc => by rw [hpc] at hset; exact hset
    cases hcall.symm.trans hfree.2

/-- Without pending tasks nothing is left. -/
theorem load_eq_zero (h : Drain s) (hth : Threads cfg s) (htk : Tasks s)
    (hq : s.quiesce = .hasPendingTasks) (hp : s.mNumPendingTasks = 0) (q : Task → Bool) :
    s.load q = 0 := by
  have hr : s.quiesce.rank = 4 := by
    rw [hq]
    rfl
  have hload : s.load Task.counted = 0 := htk.pending.symm.trans hp
  obtain ⟨hsum, hdue⟩ := Nat.add_eq_zero_iff.mp hload
  have hthreads : (s.threads.map (Thread.holds q)).sum = 0 := by
    refine List.sum_eq_zero_iff_forall_eq_nat.mpr fun n hn => ?_
    obtain ⟨th, hmem, rfl⟩ := List.mem_map.mp hn
    obtain ⟨t, ht⟩ := List.mem_iff_getElem?.mp hmem
    have hl := hth.each t th ht
    have hd := h.threads t th ht
    have hzero : th.holds Task.counted = 0 :=
      List.sum_eq_zero_iff_forall_eq_nat.mp hsum _ (List.mem_map_of_mem hmem)
    -- a thread that is not drained is free
    have hcounted : (∀ x ∈ th.stack, x.counted = true) ∧ Counted th.queue := by
      have hfree : th.Free → (∀ p, th.home ≠ .worker p) →
          (∀ x ∈ th.stack, x.counted = true) ∧ Counted th.queue := fun hf hw =>
        ⟨by simp [hf.1], by simp [Counted, hl.queue hw]⟩
      cases hhome : th.home with
      | worker p =>
        have hdr : Drained s.quiesce th.home := by
          rw [hhome]
          cases p <;> simp only [Drained, hr] <;> omega
        exact ⟨hd.stack hdr, hd.queue hdr⟩
      | dynamic u =>
        have hdr : Drained s.quiesce th.home := by
          rw [hhome]
          exact Nat.le_of_eq hr.symm
        exact ⟨hd.stack hdr, hd.queue hdr⟩
      | main => exact hfree (hl.main hhome (by simp [hq]) (by simp [hq])) (by simp [hhome])
      | outside => exact hfree (hd.outside hhome) (by simp [hhome])
    obtain ⟨hstackqueue, -⟩ := Nat.add_eq_zero_iff.mp hzero
    obtain ⟨hstack0, hqueue0⟩ := Nat.add_eq_zero_iff.mp hstackqueue
    have hstack : th.stack = [] := List.eq_nil_iff_forall_not_mem.mpr fun x hx =>
      List.countP_eq_zero.mp hstack0 x hx (hcounted.1 x hx)
    have hqueue : th.queue = [] := List.eq_nil_iff_forall_not_mem.mpr fun e he =>
      List.countP_eq_zero.mp hqueue0 e he (hcounted.2 e he)
    have hcall : th.call = none := by
      by_contra hc
      rcases hl.caller hc with hs | ho | ⟨-, hi⟩
      · exact hs hstack
      · exact hc (hd.outside ho).2
      · rw [hq] at hi
        cases hi
    simp [Thread.holds, hstack, hqueue, hcall]
  have hall : BlockingWorkQueue.due (gave q s.given) s.dynamic = 0 :=
    BlockingWorkQueue.due_eq_zero_of hdue (h.waiting (Nat.le_of_eq hr.symm)) fun k hk => by
      simp only [gave] at hk ⊢
      cases hg : s.given[k]? with
      | none =>
        rw [hg] at hk
        cases hk
      | some x => cases hc : x.counted <;> simp [hc]
  rw [St.load, hthreads, hall]

end Drain

/-! ## All runs -/

theorem Tasks.quiesced (h : Tasks s) (hload : ∀ q, s.load q = 0) : Quiesced s := by
  intro k hk
  have := h.tasks k
  rw [hload, if_pos hk, Nat.add_zero] at this
  by_cases hf : k ∈ s.finished
  · exact .inl hf
  · rw [List.count_eq_zero.mpr hf] at this
    exact .inr (List.count_pos_iff.mp (by omega))

/-- When all tasks have finished no thread is in one. -/
theorem Tasks.stack_nil (h : Tasks s) (hq : Quiesced s) {t : Nat} {th : Thread}
    (ht : s.threads[t]? = some th) : th.stack = [] := by
  rcases hs : th.stack with _ | ⟨x, rest⟩
  · rfl
  · exfalso
    have hholds : 1 ≤ th.holds (isTask x.id) := by
      simp only [Thread.holds, hs, countP_cons_toNat, isTask, decide_true, Bool.toNat_true]
      omega
    have hle : th.holds (isTask x.id) ≤ (s.threads.map (Thread.holds (isTask x.id))).sum :=
      List.single_le_sum (by simp) _ (List.mem_map_of_mem (List.mem_of_getElem? ht))
    have htask := h.tasks x.id
    rw [St.load] at htask
    split at htask
    · rename_i hlt
      rcases hq x.id hlt with hm | hm
      · have := List.count_pos_iff.mpr hm
        omega
      · have := List.count_pos_iff.mpr hm
        omega
    · omega

/-- What holds in all runs. -/
structure Inv (cfg : Config) (s : St) : Prop where
  threads : Threads cfg s
  claims : Claims s.threads
  tasks : Tasks s
  drain : Active s.quiesce → Drain s
  returned : s.quiesce = .returned → Quiesced s

/-- After the return of `Quiesce` the tasks stay finished, until its caller goes on. -/
theorem Inv.returned_step (h : Inv cfg s) (hok : OnlyTasks cfg s l) (hs : Step cfg s l s')
    (hq : s'.quiesce = .returned) : Quiesced s' := by
  cases hs with
  | @call t th callee ht hc hm =>
    exfalso
    rcases hc.2.2 with hst | ho | ⟨-, hi⟩
    · exact hst (h.tasks.stack_nil (h.returned hq) ht)
    · have hidle : s.quiesce ≠ .idle := by
        rw [show s.quiesce = .returned from hq]
        simp
      exact hok hidle ((h.threads.each t th ht).home ▸ ho)
    · rw [show s.quiesce = .returned from hq] at hi
      cases hi
  | refuse ht hcall hx => exact fun k hk => (h.returned hq k hk).imp_right (List.mem_cons_of_mem _)
  | runBlockingTask ht hcall hx hd =>
    refine fun k hk => (h.returned hq k hk).imp_right fun hm => ?_
    show k ∈ if _ then _ else _
    split
    · exact hm
    · exact List.mem_cons_of_mem _ hm
  | finish ht hstack hcall hd | finishDynamic ht hstack hcall hhome hd =>
    exact fun k hk => (h.returned hq k hk).imp_left (List.mem_cons_of_mem _)
  | returned hq' hp =>
    have hact : Active s.quiesce := by simp [Active, hq']
    exact h.tasks.quiesced ((h.drain hact).load_eq_zero h.threads h.tasks hq' hp)
  | start ht hfree hq' | quiesceTake ht hfree hq' hv htake | quiescePass hq' hv hpop
  | stopWaiting hq' hm hd | threadExited hq' hd | loop hq' hp | leave hq' => cases hq
  | @allBlocked _ th p looping ht hfree hq' hb => cases p <;> cases hq
  | _ => exact h.returned hq

theorem Inv.step (h : Inv cfg s) (hok : OnlyTasks cfg s l ∧ NoneBetween s l) (hs : Step cfg s l s') :
    Inv cfg s' := by
  refine ⟨h.threads.step hs, h.claims.step hs, h.tasks.step h.threads hs, fun hact' => ?_,
    h.returned_step hok.1 hs⟩
  by_cases hact : Active s.quiesce
  · exact (h.drain hact).step h.threads hact hok.1 hs hact'
  · -- only the first step of `Quiesce` leads there
    cases hs with
    | start ht hfree hq => exact .start h.threads h.claims hok.1 hok.2
    | quiesceTake ht hfree hq hv htake => exact absurd (by simp [Active, hq]) hact
    | quiescePass hq hv hpop => exact absurd (by simp [Active, hq]) hact
    | allBlocked ht hfree hq hb => exact absurd (by simp [Active, hq]) hact
    | stopWaiting hq hm hd => exact absurd (by simp [Active, hq]) hact
    | threadExited hq hd => exact absurd (by simp [Active, hq]) hact
    | returned hq hp => exact absurd (by simp [Active, hq]) hact
    | loop hq hp => exact absurd (by simp [Active, hq]) hact
    | leave hq => exact absurd rfl hact'.1
    | _ => exact absurd hact' hact

/-- The number of the positions below `first` at which a worker of the pool is. -/
theorem countP_home (p : Pool) :
    (List.range cfg.first).countP (fun t => decide (cfg.home t = .worker p)) = cfg.mNumThreads p := by
  have hlen : (cfg.mThreadData p).length = cfg.mNumThreads p := by
    cases p <;> simp [Config.mThreadData]
  have hperm : ((List.range cfg.first).filter fun t => decide (cfg.home t = .worker p)).Perm
      (cfg.mThreadData p) := by
    have hnodup : (cfg.mThreadData p).Nodup := by
      cases p <;> exact List.nodup_range'
    refine (List.perm_ext_iff_of_nodup (List.nodup_range.filter _) hnodup).mpr fun t => ?_
    rw [List.mem_filter, List.mem_range, decide_eq_true_eq, ← Config.mem_mThreadData]
    refine ⟨And.right, fun hm => ⟨?_, hm⟩⟩
    simp only [Config.first, Config.main]
    cases p <;> simp only [Config.mThreadData, List.mem_range'_1] at hm <;> omega
  rw [List.countP_eq_length_filter, hperm.length_eq, hlen]

theorem inv_init : Inv cfg (init cfg) where
  threads := by
    refine ⟨fun t th ht => ?_, by simp [init, BlockingWorkQueue.init], fun p => ?_, fun p => ?_,
      BlockingWorkQueue.inv_init, rfl, rfl⟩
    · obtain ⟨u, hu, rfl⟩ := Option.map_eq_some_iff.mp ((List.getElem?_map ..).symm.trans ht)
      obtain ⟨hlt, rfl⟩ := List.getElem?_eq_some_iff.mp hu
      rw [List.getElem_range]
      exact ⟨rfl, fun _ => ⟨rfl, rfl⟩, fun _ => rfl, fun _ => rfl, fun _ _ hb => absurd ⟨rfl, rfl⟩ hb,
        fun hc => absurd rfl hc, fun _ _ hc => (by cases hc), fun _ hi => absurd rfl hi⟩
    · refine (List.countP_eq_zero.mpr fun th hth => ?_).symm
      obtain ⟨t, -, rfl⟩ := List.mem_map.mp hth
      simp [Thread.blockedIn, Thread.new]
    · rw [← countP_home p, init, List.countP_map]
      rfl
  claims := fun j v hv e he _ => by
    obtain ⟨t, -, rfl⟩ := List.mem_map.mp (List.mem_of_getElem? hv)
    cases he
  tasks := by
    have hload : ∀ q, (init cfg).load q = 0 := fun q => by
      refine Nat.add_eq_zero_iff.mpr ⟨List.sum_eq_zero_iff_forall_eq_nat.mpr fun n hn => ?_, rfl⟩
      obtain ⟨th, hth, rfl⟩ := List.mem_map.mp hn
      obtain ⟨t, -, rfl⟩ := List.mem_map.mp hth
      rfl
    exact ⟨(hload _).symm, fun k => by rw [hload]; simp [init]⟩
  drain hact := absurd rfl hact.1
  returned hq := by cases hq

/-- `Quiesce` returns when every task has finished, if no call from one pool to another was between its
check of the flag and the end of its push when the flag was raised. -/
theorem quiesce_finished (cfg : Config) {s : St}
    (hs : (sys cfg).Reach (fun s l => OnlyTasks cfg s l ∧ NoneBetween s l) s)
    (hq : s.quiesce = .returned) : Quiesced s := by
  have h : Inv cfg s := by
    refine hs.invariant (I := Inv cfg) ?_ ?_
    · rintro s rfl
      exact inv_init
    · exact fun s l s' h hok hn => h.step hok (step_cases hn)
  exact h.returned hq

/-- One worker in each pool, and one dynamic thread at most. -/
def small : Config := ⟨fun _ => 1, 0, 1⟩

/-- A blocking task adds a task after the flag was raised; it is found in the second pass. -/
def secondPass : List Label :=
  [.call 2 .enqueueBlockingTask, .pushFront 2 1, .fill 2, .steal 1 1, .start, .quiesceSteal 0,
    .prewait 0, .emptyQueue 0 0, .block 0, .allBlocked, .quiesceSteal 1, .call 1 .addTask, .wrap 1,
    .pushBack 1 0, .finish 1, .prewait 1, .emptyQueue 1 1, .block 1, .allBlocked, .stopWaiting,
    .threadExited, .hasPendingTasks, .quiesceSteal 0, .finish 2, .quiesceSteal 0, .allBlocked,
    .quiesceSteal 1, .allBlocked, .stopWaiting, .threadExited, .hasPendingTasks]

theorem quiesce_finished_second : ∃ s,
    runLabels (guarded (step small) fun s l => OnlyTasks small s l ∧ NoneBetween s l) (init small)
      secondPass = some s ∧ s.submitted = 2 ∧ Quiesced s := by
  refine ⟨_, rfl, rfl, ?_⟩
  have hr : (sys small).Reach (fun s l => OnlyTasks small s l ∧ NoneBetween s l) _ :=
    reach_guarded (.init rfl) secondPass rfl
  exact quiesce_finished small hr rfl

/-- A blocking task has read the flag before it is raised, and adds its task when the other pool was
drained. -/
def lostTask : List Label :=
  [.call 2 .enqueueBlockingTask, .pushFront 2 1, .fill 2, .steal 1 1, .call 1 .addTask, .prewait 0,
    .emptyQueue 0 0, .block 0, .start, .quiesceSteal 0, .allBlocked, .quiesceSteal 1, .pushBack 1 0,
    .finish 1, .prewait 1, .emptyQueue 1 1, .block 1, .allBlocked, .stopWaiting, .threadExited,
    .hasPendingTasks]

/-- While only tasks are active, `Quiesce` may return before a task has been executed. -/
theorem not_quiesce_finished : ¬ ∀ (cfg : Config) (s : St), (sys cfg).Reach (OnlyTasks cfg) s →
    s.quiesce = .returned → Quiesced s := by
  intro h
  have hr : (sys small).Reach (OnlyTasks small) _ := reach_guarded (.init rfl) lostTask rfl
  rcases h small _ hr rfl 1 (by decide) with hf | hf
  · exact absurd hf (by decide)
  · exact absurd hf (by decide)

end MultiThreadedWorkQueue

end AsyncLib
