import AsyncLib.Context.MultiThreaded
import AsyncLib.Lib.Modify

/-!
# What a step of `MultiThreadedWorkQueue` does

* `Takes`: what a pop removes from a queue. `popBack_eq_none`: when a `PopBack` finds nothing.
* `Settled`: a worker has seen its own queue empty since it last looked for work.
* `Step`: the steps as a relation, one rule for the steps that do the same. `step_cases`: every step of
  `step` is one of them; the invariants are proved by cases on the rule.
-/

namespace AsyncLib

namespace MultiThreadedWorkQueue

open Sys Thread

/-! ## Queues -/

/-- The task `x` was taken from the queue, and the rest is left. -/
def Takes (queue : List Slot) (x : Task) (rest : List Slot) : Prop :=
  ∃ A B, queue = A ++ ⟨x, true⟩ :: B ∧ rest = A ++ B

theorem popFront_takes {queue rest : List Slot} {x : Task} (h : popFront queue = some (x, rest)) :
    Takes queue x rest := by
  unfold popFront at h
  split at h
  · cases h
    exact ⟨[], rest, rfl, rfl⟩
  · cases h

theorem popBack_takes {queue rest : List Slot} {x : Task} (h : popBack queue = some (x, rest)) :
    Takes queue x rest := by
  unfold popBack at h
  split at h
  · rename_i hlast
    cases h
    exact ⟨queue.dropLast, [], (List.dropLast_append_getLast? _ hlast).symm, by simp⟩
  · cases h

theorem nextTask_takes {p : Pool} {queue rest : List Slot} {x : Task}
    (h : nextTask p queue = some (x, rest)) : Takes queue x rest := by
  cases p with
  | nonBlocking => exact popFront_takes h
  | blocking => exact popBack_takes h

/-- A `PopBack` fails when there is nothing, or when the last slot is not filled. -/
theorem popBack_eq_none {queue : List Slot} (h : popBack queue = none) (e : Slot)
    (he : queue.getLast? = some e) : e.ready = false := by
  obtain ⟨x, ready⟩ := e
  cases ready with
  | false => rfl
  | true =>
    simp only [popBack, he] at h
    cases h

theorem Takes.sublist {queue rest : List Slot} {x : Task} (h : Takes queue x rest) :
    rest.Sublist queue := by
  obtain ⟨A, B, rfl, rfl⟩ := h
  exact (List.sublist_cons_self _ _).append_left A

theorem Takes.mem {queue rest : List Slot} {x : Task} (h : Takes queue x rest) :
    (⟨x, true⟩ : Slot) ∈ queue := by
  obtain ⟨A, B, rfl, -⟩ := h
  simp

theorem Takes.countP {queue rest : List Slot} {x : Task} (h : Takes queue x rest) (q : Task → Bool) :
    rest.countP (fun e => q e.task) + (q x).toNat = queue.countP fun e => q e.task := by
  obtain ⟨A, B, rfl, rfl⟩ := h
  simp only [List.countP_append, List.countP_cons]
  cases q x <;> simp +arith

/-! ## Positions -/

variable {cfg : Config}

theorem Config.mem_mThreadData {p : Pool} {t : Nat} :
    t ∈ cfg.mThreadData p ↔ cfg.home t = .worker p := by
  by_cases h1 : t < cfg.mNumThreads .nonBlocking
  · cases p
    · simp [mThreadData, List.mem_range'_1, home, h1]
    · simp [mThreadData, List.mem_range'_1, home, h1]
  · by_cases h2 : t < cfg.main
    · have := h2
      simp only [main] at this
      cases p
      · simp [mThreadData, List.mem_range'_1, home, h1, h2]
      · simp [mThreadData, List.mem_range'_1, home, h1, h2]
        omega
    · have hhome : cfg.home t ≠ .worker p := by
        rw [home, if_neg h1, if_neg h2]
        split
        · simp
        · split <;> simp
      simp only [main] at h2
      simp only [hhome, iff_false]
      cases p <;> simp only [mThreadData, List.mem_range'_1] <;> omega

theorem Config.home_main : cfg.home cfg.main = .main := by
  simp [home, main]

theorem Config.eq_main {t : Nat} (h : cfg.home t = .main) : t = cfg.main := by
  simp only [home] at h
  split at h
  · cases h
  · split at h
    · cases h
    · split at h
      · assumption
      · split at h <;> cases h

theorem Config.home_dynamic {t d : Nat} (h : cfg.home t = .dynamic d) : t = cfg.first + d := by
  simp only [home] at h
  split at h
  · cases h
  · split at h
    · cases h
    · split at h
      · cases h
      · split at h
        · cases h
        · cases h
          omega

theorem Config.home_first (d : Nat) : cfg.home (cfg.first + d) = .dynamic d := by
  have h1 : ¬ cfg.first + d < cfg.mNumThreads .nonBlocking := by
    simp only [first, main]
    omega
  have h2 : ¬ cfg.first + d < cfg.main := by
    simp only [first]
    omega
  have h3 : cfg.first + d ≠ cfg.main := by
    simp only [first]
    omega
  rw [home, if_neg h1, if_neg h2, if_neg h3, if_neg (by omega), Nat.add_sub_cancel_left]

/-! ## Steps -/

/-- A worker at `pc` has seen the queue `t` empty since it last looked for work. -/
def Pc.Settled (t : Nat) : Pc → Prop
  | .running => False
  | .scan left => t ∉ left
  | .blocked => True

open BlockingWorkQueue in
/-- The steps of `step`, with what is known before each of them. -/
inductive Step (cfg : Config) (s : St) : Label → St → Prop
  | call {t : Nat} {th : Thread} {callee : Callee} (ht : s.threads[t]? = some th)
      (hc : Callable s th) (hm : callee = .runBlockingTask → s.mMutex = none) :
    Step cfg s (.call t callee)
      { s.modify t (setCall (some (.checked callee s.isQuiescing ⟨s.submitted, false⟩))) with
        mMutex := if callee = .runBlockingTask then some t else s.mMutex
        submitted := s.submitted + 1 }
  | wrap {l : Label} {t : Nat} {th : Thread} {callee : Callee} {x : Task}
      (ht : s.threads[t]? = some th) (hcall : th.call = some (.checked callee true x))
      (hx : x.counted = false) :
    Step cfg s l
      { s.modify t (setCall (some (.checked callee true { x with counted := true }))) with
        mNumPendingTasks := s.mNumPendingTasks + 1 }
  | pushFront {l : Label} {t j : Nat} {th : Thread} {callee : Callee} {q : Bool} {x : Task}
      (ht : s.threads[t]? = some th) (hcall : th.call = some (.checked callee q x))
      (hx : x.counted = q) (hj : PushesFront cfg th.home t j callee) :
    Step cfg s l ((s.modify j fun v => v.setQueue (⟨x, false⟩ :: v.queue)).modify t
      (setCall (some (.claimed j x.id))))
  | fill {l : Label} {t j id : Nat} {th : Thread} (ht : s.threads[t]? = some th)
      (hcall : th.call = some (.claimed j id)) :
    Step cfg s l ((s.modify j (Thread.fill id)).modify t (setCall none))
  | pushBack {l : Label} {t j : Nat} {th : Thread} {q : Bool} {x : Task}
      (ht : s.threads[t]? = some th) (hcall : th.call = some (.checked .addTask q x))
      (hx : x.counted = q) (hhome : th.home ≠ .worker .nonBlocking)
      (hj : j ∈ cfg.mThreadData .nonBlocking) :
    Step cfg s l ((s.modify j fun v => v.setQueue (v.queue ++ [⟨x, true⟩])).modify t (setCall none))
  | inline {l : Label} {t : Nat} {th : Thread} {callee : Callee} {q : Bool} {x : Task}
      (ht : s.threads[t]? = some th) (hcall : th.call = some (.checked callee q x))
      (hx : x.counted = q) (hc : callee ≠ .runBlockingTask) :
    Step cfg s l (s.modify t fun th => (th.setCall none).setStack (x :: th.stack))
  | refuse {l : Label} {t : Nat} {th : Thread} {callee : Callee} {q : Bool} {x : Task}
      (ht : s.threads[t]? = some th) (hcall : th.call = some (.checked callee q x))
      (hx : x.counted = false) :
    Step cfg s l { s.modify t (setCall none) with refused := x.id :: s.refused }
  | runBlockingTask {l : Label} {t : Nat} {th : Thread} {q : Bool} {x : Task}
      {d : BlockingWorkQueue.St} (ht : s.threads[t]? = some th)
      (hcall : th.call = some (.checked .runBlockingTask q x)) (hx : x.counted = (q && s.accepts cfg))
      (hd : BlockingWorkQueue.step cfg.mMaxNumDynamicThreads s.dynamic .runBlockingTask = some d) :
    Step cfg s l
      { s.modify t (setCall none) with
        threads := (s.modify t (setCall none)).threads ++
          (List.range' s.dynamic.threads.length
            (d.threads.length - s.dynamic.threads.length)).map fun d => Thread.new (.dynamic d)
        dynamic := d
        given := s.given ++ [x]
        mMutex := none
        refused := if s.accepts cfg then s.refused else x.id :: s.refused }
  | finish {l : Label} {t : Nat} {th : Thread} {x : Task} {rest : List Task}
      (ht : s.threads[t]? = some th) (hstack : th.stack = x :: rest) (hcall : th.call = none)
      (hd : ∀ d, th.home = .dynamic d → rest ≠ []) :
    Step cfg s l { s.modify t (setStack rest) with
      mNumPendingTasks := if x.counted then s.mNumPendingTasks - 1 else s.mNumPendingTasks
      finished := x.id :: s.finished }
  | finishDynamic {l : Label} {t d : Nat} {th : Thread} {x : Task} {dynamic : BlockingWorkQueue.St}
      (ht : s.threads[t]? = some th) (hstack : th.stack = [x]) (hcall : th.call = none)
      (hhome : th.home = .dynamic d)
      (hd : BlockingWorkQueue.step cfg.mMaxNumDynamicThreads s.dynamic (.returnTask d) =
        some dynamic) :
    Step cfg s l { s.modify t (setStack []) with
      mNumPendingTasks := if x.counted then s.mNumPendingTasks - 1 else s.mNumPendingTasks
      finished := x.id :: s.finished
      dynamic }
  | take {l : Label} {t j : Nat} {th v : Thread} {p : Pool} {x : Task} {rest : List Slot}
      (ht : s.threads[t]? = some th) (hhome : th.home = .worker p) (hfree : th.Free)
      (hpc : th.pc = .running) (hv : s.threads[j]? = some v) (hj : j = t ∨ j ∈ cfg.mThreadData p)
      (htake : Takes v.queue x rest) :
    Step cfg s l ((s.modify j (setQueue rest)).modify t (setStack [x]))
  | look {l : Label} {t : Nat} {th : Thread} {p : Pool} {pc : Pc}
      (ht : s.threads[t]? = some th) (hhome : th.home = .worker p) (hfree : th.Free)
      (hpc : th.pc ≠ .blocked ∧ pc ≠ .blocked)
      (hsettled : t ∈ cfg.mThreadData p → pc.Settled t → th.pc.Settled t ∨ th.queue = []) :
    Step cfg s l (s.modify t (setPc pc))
  | block {l : Label} {t : Nat} {th : Thread} {p : Pool} (ht : s.threads[t]? = some th)
      (hhome : th.home = .worker p) (hfree : th.Free) (hpc : th.pc = .scan []) :
    Step cfg s l { s.modify t (setPc .blocked) with
      mBlocked := Function.update s.mBlocked p (s.mBlocked p + 1) }
  | wake {l : Label} {t : Nat} {th : Thread} {p : Pool} (ht : s.threads[t]? = some th)
      (hhome : th.home = .worker p) (hfree : th.Free) (hpc : th.pc = .blocked) :
    Step cfg s l { s.modify t (setPc .running) with
      mBlocked := Function.update s.mBlocked p (s.mBlocked p - 1) }
  | doWork {l : Label} {d k : Nat} {x : Task} {dynamic : BlockingWorkQueue.St}
      (hk : s.dynamic.threads[d]? = some (.call k)) (hx : s.given[k]? = some x)
      (hd : BlockingWorkQueue.step cfg.mMaxNumDynamicThreads s.dynamic (.call d) = some dynamic) :
    Step cfg s l { s.modify (cfg.first + d) (setStack [x]) with dynamic }
  | dynamic {l : Label} {m : BlockingWorkQueue.Label} {dynamic : BlockingWorkQueue.St}
      (hm : (∃ d, m = .waitNextTask d) ∨ ∃ d timeout, m = .wake d timeout)
      (hd : BlockingWorkQueue.step cfg.mMaxNumDynamicThreads s.dynamic m = some dynamic) :
    Step cfg s l { s with dynamic }
  | start {th : Thread} (ht : s.threads[cfg.main]? = some th) (hfree : th.Free)
      (hq : s.quiesce = .idle) :
    Step cfg s .start { s with
      mNumQuiescing := s.mNumQuiescing + 1
      quiesce := .steal .nonBlocking false (cfg.mThreadData .nonBlocking) }
  | quiesceTake {l : Label} {th v : Thread} {p : Pool} {looping : Bool} {left : List Nat} {j : Nat}
      {x : Task} {rest : List Slot} (ht : s.threads[cfg.main]? = some th) (hfree : th.Free)
      (hq : s.quiesce = .steal p looping left) (hv : s.threads[j]? = some v)
      (htake : Takes v.queue x rest) :
    Step cfg s l { (s.modify j (setQueue rest)).modify cfg.main (setStack [x]) with
      quiesce := .steal p looping (cfg.mThreadData p) }
  | quiescePass {l : Label} {v : Thread} {p : Pool} {looping : Bool} {left : List Nat} {j : Nat}
      (hq : s.quiesce = .steal p looping left) (hv : s.threads[j]? = some v)
      (hpop : popBack v.queue = none) :
    Step cfg s l { s with quiesce := .steal p looping (left.erase j) }
  | allBlocked {l : Label} {th : Thread} {p : Pool} {looping : Bool}
      (ht : s.threads[cfg.main]? = some th) (hfree : th.Free) (hq : s.quiesce = .steal p looping [])
      (hb : s.mBlocked p = cfg.mNumThreads p) :
    Step cfg s l { s with quiesce := afterPool cfg looping p }
  | stopWaiting {l : Label} {looping : Bool} {dynamic : BlockingWorkQueue.St}
      (hq : s.quiesce = .stopWaiting looping) (hm : s.mMutex = none)
      (hd : BlockingWorkQueue.step cfg.mMaxNumDynamicThreads s.dynamic .quiesce = some dynamic) :
    Step cfg s l { s with dynamic, quiesce := .threadExited looping }
  | threadExited {l : Label} {looping : Bool} {dynamic : BlockingWorkQueue.St}
      (hq : s.quiesce = .threadExited looping)
      (hd : BlockingWorkQueue.step cfg.mMaxNumDynamicThreads s.dynamic .quiesced = some dynamic) :
    Step cfg s l { s with dynamic, quiesce := .hasPendingTasks }
  | returned {l : Label} (hq : s.quiesce = .hasPendingTasks) (hp : s.mNumPendingTasks = 0) :
    Step cfg s l { s with mNumQuiescing := s.mNumQuiescing - 1, quiesce := .returned }
  | loop {l : Label} (hq : s.quiesce = .hasPendingTasks) (hp : s.mNumPendingTasks ≠ 0) :
    Step cfg s l { s with quiesce := .steal .nonBlocking true (cfg.mThreadData .nonBlocking) }
  | leave {l : Label} (hq : s.quiesce = .returned) : Step cfg s l { s with quiesce := .idle }

variable {s s' : St}

/-- A step in a call whose task is not handed over. -/
theorem stepCall_cases {t : Nat} {th : Thread} {callee : Callee} {q : Bool} {x : Task} {l : Label}
    (ht : s.threads[t]? = some th) (hcall : th.call = some (.checked callee q x))
    (hs : stepCall cfg s t th callee q x l = some s') : Step cfg s l s' := by
  cases l with
  | wrap _ =>
    obtain ⟨⟨hq, hx, -⟩, h⟩ := Option.ite_none_right_eq_some.mp hs
    subst hq
    cases h
    exact .wrap ht hcall hx
  | pushFront _ j =>
    obtain ⟨⟨hx, hj⟩, hs⟩ := Option.ite_none_right_eq_some.mp hs
    cases hs
    exact .pushFront ht hcall hx hj
  | pushBack _ j =>
    obtain ⟨⟨hx, hc, hhome, hj⟩, h⟩ := Option.ite_none_right_eq_some.mp hs
    subst hc
    cases h
    exact .pushBack ht hcall hx hhome hj
  | full _ =>
    obtain ⟨⟨hx, hc⟩, hs⟩ := Option.ite_none_right_eq_some.mp hs
    split at hs
    · cases hs
      exact .inline ht hcall hx hc
    · rename_i hq
      cases hs
      have hqf : q = false := by
        cases q with
        | false => rfl
        | true => exact absurd (.inr rfl) hq
      exact .refuse ht hcall (hqf ▸ hx)
  | runBlockingTask _ =>
    obtain ⟨⟨hc, hx⟩, h⟩ := Option.ite_none_right_eq_some.mp hs
    subst hc
    obtain ⟨d, hd, rfl⟩ := Option.map_eq_some_iff.mp h
    exact .runBlockingTask ht hcall hx hd
  | _ => cases hs

/-- A step of a worker that has no task. -/
theorem stepWorker_cases {t : Nat} {th : Thread} {p : Pool} {l : Label}
    (ht : s.threads[t]? = some th) (hhome : th.home = .worker p) (hfree : th.Free)
    (hs : stepWorker cfg s t th p l = some s') : Step cfg s l s' := by
  cases l with
  | nextTask _ =>
    obtain ⟨hpc, hs⟩ := Option.ite_none_right_eq_some.mp hs
    obtain ⟨⟨x, rest⟩, hpop, hs⟩ := Option.bind_eq_some_iff.mp hs
    cases hs
    exact .take ht hhome hfree hpc ht (.inl rfl) (nextTask_takes hpop)
  | steal _ j =>
    obtain ⟨⟨hpc, hj⟩, hs⟩ := Option.ite_none_right_eq_some.mp hs
    obtain ⟨v, hv, hs⟩ := Option.bind_eq_some_iff.mp hs
    obtain ⟨⟨x, rest⟩, hpop, hs⟩ := Option.bind_eq_some_iff.mp hs
    cases hs
    exact .take ht hhome hfree hpc hv (.inr hj) (popBack_takes hpop)
  | prewait _ =>
    obtain ⟨hpc, hs⟩ := Option.ite_none_right_eq_some.mp hs
    cases hs
    exact .look ht hhome hfree ⟨by simp [hpc], by simp⟩ fun hmem hset => absurd hmem hset
  | emptyQueue _ j =>
    obtain ⟨v, hv, hs⟩ := Option.bind_eq_some_iff.mp hs
    split at hs
    · rename_i left hpc
      obtain ⟨⟨hj, hempty⟩, hs⟩ := Option.ite_none_right_eq_some.mp hs
      cases hs
      refine .look ht hhome hfree ⟨by simp [hpc], by simp⟩ fun _ hset => ?_
      by_cases hjt : t = j
      · subst hjt
        rw [ht] at hv
        cases hv
        exact .inr hempty
      · rw [hpc]
        exact .inl fun hmem => hset ((List.mem_erase_of_ne hjt).mpr hmem)
    · cases hs
  | cancelWait _ j =>
    obtain ⟨v, hv, hs⟩ := Option.bind_eq_some_iff.mp hs
    split at hs
    · rename_i left hpc
      obtain ⟨-, hs⟩ := Option.ite_none_right_eq_some.mp hs
      cases hs
      exact .look ht hhome hfree ⟨by simp [hpc], by simp⟩ fun _ => False.elim
    · cases hs
  | block _ =>
    obtain ⟨hpc, hs⟩ := Option.ite_none_right_eq_some.mp hs
    cases hs
    exact .block ht hhome hfree hpc
  | wake _ =>
    obtain ⟨hpc, hs⟩ := Option.ite_none_right_eq_some.mp hs
    cases hs
    exact .wake ht hhome hfree hpc
  | _ => cases hs

/-- A step of `Quiesce`. -/
theorem stepQuiesce_cases {th : Thread} {l : Label} (ht : s.threads[cfg.main]? = some th)
    (hfree : th.Free) (hs : stepQuiesce cfg s l = some s') : Step cfg s l s' := by
  cases l with
  | start =>
    obtain ⟨hq, hs⟩ := Option.ite_none_right_eq_some.mp hs
    cases hs
    exact .start ht hfree hq
  | quiesceSteal j =>
    simp only [stepQuiesce] at hs
    split at hs
    · rename_i p looping left hq
      obtain ⟨-, hs⟩ := Option.ite_none_right_eq_some.mp hs
      obtain ⟨v, hv, hs⟩ := Option.bind_eq_some_iff.mp hs
      split at hs
      · rename_i x rest hpop
        cases hs
        exact .quiesceTake ht hfree hq hv (popBack_takes hpop)
      · rename_i hpop
        cases hs
        exact .quiescePass hq hv hpop
    · cases hs
  | allBlocked =>
    simp only [stepQuiesce] at hs
    split at hs
    · rename_i p looping hq
      obtain ⟨hb, hs⟩ := Option.ite_none_right_eq_some.mp hs
      cases hs
      exact .allBlocked ht hfree hq hb
    · cases hs
  | stopWaiting =>
    simp only [stepQuiesce] at hs
    split at hs
    · rename_i looping hq
      obtain ⟨hm, hs⟩ := Option.ite_none_right_eq_some.mp hs
      obtain ⟨d, hd, rfl⟩ := Option.map_eq_some_iff.mp hs
      exact .stopWaiting hq hm hd
    · cases hs
  | threadExited =>
    simp only [stepQuiesce] at hs
    split at hs
    · rename_i looping hq
      obtain ⟨-, hs⟩ := Option.ite_none_right_eq_some.mp hs
      obtain ⟨d, hd, rfl⟩ := Option.map_eq_some_iff.mp hs
      exact .threadExited hq hd
    · cases hs
  | hasPendingTasks =>
    obtain ⟨hq, hs⟩ := Option.ite_none_right_eq_some.mp hs
    split at hs
    · rename_i hp
      cases hs
      exact .returned hq hp
    · rename_i hp
      cases hs
      exact .loop hq hp
  | leave =>
    obtain ⟨hq, hs⟩ := Option.ite_none_right_eq_some.mp hs
    cases hs
    exact .leave hq
  | _ => cases hs

theorem step_cases {l : Label} (hs : step cfg s l = some s') : Step cfg s l s' := by
  cases l with
  | call t callee =>
    obtain ⟨th, ht, hs⟩ := Option.bind_eq_some_iff.mp hs
    obtain ⟨⟨hc, hm⟩, hs⟩ := Option.ite_none_right_eq_some.mp hs
    cases hs
    exact .call ht hc hm
  | wrap t | pushFront t j | pushBack t j | full t | runBlockingTask t =>
    obtain ⟨th, ht, hs⟩ := Option.bind_eq_some_iff.mp hs
    split at hs
    · rename_i hcall
      exact stepCall_cases ht hcall hs
    · cases hs
  | fill t =>
    obtain ⟨th, ht, hs⟩ := Option.bind_eq_some_iff.mp hs
    split at hs
    · rename_i hcall
      cases hs
      exact .fill ht hcall
    · cases hs
  | finish t =>
    obtain ⟨th, ht, hs⟩ := Option.bind_eq_some_iff.mp hs
    split at hs
    · rename_i x rest hstack hcall
      simp only at hs
      split at hs
      · rename_i d hhome
        obtain ⟨dynamic, hd, rfl⟩ := Option.map_eq_some_iff.mp hs
        exact .finishDynamic ht hstack hcall hhome hd
      · rename_i hne
        cases hs
        exact .finish ht hstack hcall fun d hhome hrest => hne d hhome hrest
    · cases hs
  | nextTask t | steal t j | prewait t | emptyQueue t j | cancelWait t j | block t | wake t =>
    obtain ⟨th, ht, hs⟩ := Option.bind_eq_some_iff.mp hs
    split at hs
    · rename_i p hhome
      obtain ⟨hfree, hs⟩ := Option.ite_none_right_eq_some.mp hs
      exact stepWorker_cases ht hhome hfree hs
    · cases hs
  | doWork d =>
    simp only [step] at hs
    split at hs
    · rename_i k hk
      obtain ⟨x, hx, hs⟩ := Option.bind_eq_some_iff.mp hs
      obtain ⟨dynamic, hd, rfl⟩ := Option.map_eq_some_iff.mp hs
      exact .doWork hk hx hd
    · cases hs
  | waitNextTask d =>
    obtain ⟨-, hs⟩ := Option.ite_none_right_eq_some.mp hs
    obtain ⟨dynamic, hd, rfl⟩ := Option.map_eq_some_iff.mp hs
    exact .dynamic (.inl ⟨d, rfl⟩) hd
  | wakeIdle d timeout =>
    obtain ⟨-, hs⟩ := Option.ite_none_right_eq_some.mp hs
    obtain ⟨dynamic, hd, rfl⟩ := Option.map_eq_some_iff.mp hs
    exact .dynamic (.inr ⟨d, timeout, rfl⟩) hd
  | start | quiesceSteal j | allBlocked | stopWaiting | threadExited | hasPendingTasks | leave =>
    obtain ⟨th, ht, hs⟩ := Option.bind_eq_some_iff.mp hs
    obtain ⟨hfree, hs⟩ := Option.ite_none_right_eq_some.mp hs
    exact stepQuiesce_cases ht hfree hs

end MultiThreadedWorkQueue

end AsyncLib
