import AsyncLib.Context.MultiThreadedInv

/-!
# Where the tasks of `MultiThreadedWorkQueue` are

* `Claims`: a slot that is not filled was claimed by a call that is under way.
* `St.load`: the number of the tasks with a property that are in a queue, on a stack, in a call, or
  handed over to a dynamic thread.
* `Tasks`: every submitted task is in one of these places, has finished, or was given back; and
  `mNumPendingTasks` is the number of the counted tasks that have not finished.
-/

namespace AsyncLib

namespace MultiThreadedWorkQueue

open Sys Thread

variable {cfg : Config} {s s' : St} {l : Label}

/-! ## Claimed slots -/

/-- Some call has claimed a slot of the queue `j` for the task `id`. -/
def Claimed (threads : List Thread) (j id : Nat) : Prop :=
  ∃ (u : Nat) (th : Thread), threads[u]? = some th ∧ th.call = some (.claimed j id)

/-- A slot that is not filled was claimed by a call. -/
def Claims (threads : List Thread) : Prop :=
  Each (fun j v => ∀ e ∈ v.queue, e.ready = false → Claimed threads j e.task.id) threads

section Claims

variable {threads : List Thread} {t : Nat} {f : Thread → Thread}

theorem Claimed.modify {j id : Nat} (h : Claimed threads j id)
    (hf : ∀ th, threads[t]? = some th → th.call = some (.claimed j id) →
      (f th).call = some (.claimed j id)) : Claimed (threads.modify t f) j id := by
  obtain ⟨u, th, hu, hcall⟩ := h
  by_cases hut : t = u
  · subst hut
    exact ⟨t, f th, by rw [List.getElem?_modify_eq, hu]; rfl, hf th hu hcall⟩
  · exact ⟨u, th, by rw [List.getElem?_modify_ne _ _ hut, hu], hcall⟩

/-- The thread `t` claims no slot, and ends no claim. -/
theorem Claims.modify (h : Claims threads)
    (hcall : ∀ th, threads[t]? = some th → ∀ j id, th.call = some (.claimed j id) →
      (f th).call = some (.claimed j id))
    (hqueue : ∀ th, threads[t]? = some th → ∀ e ∈ (f th).queue, e.ready = false → e ∈ th.queue) :
    Claims (threads.modify t f) := by
  refine Each.modify_of h (fun th ht e he hr => ?_) fun u th _ hu hl e he hr =>
    (hl e he hr).modify fun th' ht' => hcall th' ht' _ _
  exact (h t th ht e (hqueue th ht e he hr) hr).modify fun th' ht' => hcall th' ht' _ _

/-- A slot is claimed, by a call that says so. -/
theorem Claims.cons (h : Claims threads) {j : Nat} {x : Task} (hc : Claimed threads j x.id) :
    Claims (threads.modify j fun v => v.setQueue (⟨x, false⟩ :: v.queue)) := by
  have hkeep : ∀ {i id : Nat}, Claimed threads i id →
      Claimed (threads.modify j fun v => v.setQueue (⟨x, false⟩ :: v.queue)) i id :=
    fun hc => hc.modify fun _ _ hcall => hcall
  refine Each.modify_of h (fun v hv e he hr => ?_) fun u v _ _ hl e he hr => hkeep (hl e he hr)
  rcases List.mem_cons.mp he with rfl | he
  · exact hkeep hc
  · exact hkeep (h j v hv e he hr)

/-- A claimed slot is filled. -/
theorem Claims.fill (h : Claims threads) {j id : Nat} {th : Thread} (ht : threads[t]? = some th)
    (hcall : th.call = some (.claimed j id)) :
    Claims ((threads.modify j (Thread.fill id)).modify t (Thread.setCall none)) := by
  have hkeep : ∀ {i k : Nat}, (i, k) ≠ (j, id) → Claimed threads i k →
      Claimed ((threads.modify j (Thread.fill id)).modify t (Thread.setCall none)) i k := by
    intro i k hne hc
    have hfill : Claimed (threads.modify j (Thread.fill id)) i k := hc.modify fun _ _ hcall => hcall
    refine hfill.modify fun th' ht' hcall' => ?_
    -- the claim of the thread `t` is the one on the task `id`
    obtain ⟨queue, rfl⟩ := eq_setQueue ht
      (f := fun v => v.queue.map fun e => if e.task.id = id then { e with ready := true } else e) ht'
    cases hcall.symm.trans hcall'
    exact absurd rfl hne
  have hold : Each (fun i v => ∀ e ∈ v.queue, e.ready = false →
      Claimed threads i e.task.id ∧ (i, e.task.id) ≠ (j, id)) (threads.modify j (Thread.fill id)) := by
    refine Each.modify_of h (fun v hv e he hr => ?_) fun u v huj _ hl e he hr =>
      ⟨hl e he hr, fun heq => huj (Prod.mk.inj heq).1⟩
    obtain ⟨e₀, he₀, rfl⟩ := List.mem_map.mp he
    split at hr
    · cases hr
    · rename_i hid
      rw [if_neg hid]
      exact ⟨h j v hv e₀ he₀ hr, fun heq => hid (Prod.mk.inj heq).2⟩
  refine Each.modify_of hold (fun v hv e he hr => ?_) fun u v _ _ hl e he hr =>
    hkeep (hl e he hr).2 (hl e he hr).1
  have := hold t v hv e he hr
  exact hkeep this.2 this.1

/-- New threads have claimed nothing. -/
theorem Claims.append (h : Claims threads) {new : List Thread} (hnew : ∀ th ∈ new, th.queue = []) :
    Claims (threads ++ new) := by
  have hkeep : ∀ {i id : Nat}, Claimed threads i id → Claimed (threads ++ new) i id := by
    rintro i id ⟨u, th, hu, hcall⟩
    exact ⟨u, th, by rw [List.getElem?_append_left (List.getElem?_eq_some_iff.mp hu).1, hu], hcall⟩
  refine Each.append (fun i v hv e he hr => hkeep (h i v hv e he hr)) fun i th hi e he => ?_
  rw [hnew th (List.mem_of_getElem? hi)] at he
  cases he

/-- Two steps on different fields may be exchanged. -/
theorem modify_comm {j : Nat} {g : Thread → Thread} (hfg : ∀ th, f (g th) = g (f th)) :
    (threads.modify j g).modify t f = (threads.modify t f).modify j g := by
  by_cases hjt : j = t
  · subst hjt
    rw [List.modify_modify_eq, List.modify_modify_eq]
    exact congrArg (threads.modify j) (funext hfg)
  · exact List.modify_modify_ne _ _ _ hjt

end Claims

theorem Claims.step (h : Claims s.threads) (hs : Step cfg s l s') : Claims s'.threads := by
  -- a thread whose call is not a claim ends none
  have hend : ∀ {t : Nat} {th : Thread} {f : Thread → Thread}, s.threads[t]? = some th →
      (∀ j id, th.call ≠ some (.claimed j id)) → (∀ th, (f th).queue = th.queue) →
      Claims (s.threads.modify t f) := by
    intro t th f ht hne hq
    refine h.modify (fun th' ht' j id hcall => ?_) fun th' _ e he _ => hq th' ▸ he
    rw [ht] at ht'
    cases ht'
    exact absurd hcall (hne j id)
  have htake : ∀ {t j : Nat} {v : Thread} {x : Task} {rest : List Slot}, s.threads[j]? = some v →
      Takes v.queue x rest →
      Claims ((s.modify j (Thread.setQueue rest)).modify t (Thread.setStack [x])).threads := by
    intro t j v x rest hv htake
    refine Claims.modify (h.modify (fun _ _ _ _ hcall => hcall) fun v' hv' e he _ => ?_)
      (fun _ _ _ _ hcall => hcall) fun _ _ e he _ => he
    rw [hv] at hv'
    cases hv'
    exact htake.sublist.subset he
  cases hs with
  | call ht hc hm => exact hend ht (by simp [hc.2.1]) fun _ => rfl
  | wrap ht hcall hx => exact hend ht (by simp [hcall]) fun _ => rfl
  | @pushFront _ t j th callee q x ht hcall hx hj =>
    have hclaim : Claims (s.threads.modify t (Thread.setCall (some (.claimed j x.id)))) :=
      hend ht (by simp [hcall]) fun _ => rfl
    have hc : Claimed (s.threads.modify t (Thread.setCall (some (.claimed j x.id)))) j x.id :=
      ⟨t, th.setCall (some (.claimed j x.id)), by rw [List.getElem?_modify_eq, ht]; rfl, rfl⟩
    have := hclaim.cons hc
    rwa [← modify_comm (g := fun v => v.setQueue (⟨x, false⟩ :: v.queue))
      (f := Thread.setCall (some (.claimed j x.id))) fun _ => rfl] at this
  | fill ht hcall => exact h.fill ht hcall
  | @pushBack _ t j th q x ht hcall hx hhome hj =>
    have hq : Claims (s.threads.modify j fun v => v.setQueue (v.queue ++ [⟨x, true⟩])) := by
      refine h.modify (fun _ _ _ _ hcall => hcall) fun v _ e he hr => ?_
      rcases List.mem_append.mp he with he | he
      · exact he
      · cases List.mem_singleton.mp he
        cases hr
    refine hq.modify (fun th' ht' i id hcall' => ?_) fun _ _ e he _ => he
    obtain ⟨queue, rfl⟩ := eq_setQueue ht ht'
    cases hcall.symm.trans hcall'
  | inline ht hcall hx hc => exact hend ht (by simp [hcall]) fun _ => rfl
  | refuse ht hcall hx => exact hend ht (by simp [hcall]) fun _ => rfl
  | runBlockingTask ht hcall hx hd =>
    refine (hend (f := Thread.setCall none) ht (by simp [hcall]) fun _ => rfl).append fun th hth => ?_
    obtain ⟨d, -, rfl⟩ := List.mem_map.mp hth
    rfl
  | finish ht hstack hcall hd => exact hend ht (by simp [hcall]) fun _ => rfl
  | finishDynamic ht hstack hcall hhome hd => exact hend ht (by simp [hcall]) fun _ => rfl
  | take ht hhome hfree hpc hv hj ht' => exact htake hv ht'
  | look ht hhome hfree hpc hsettled => exact hend ht (by simp [hfree.2]) fun _ => rfl
  | block ht hhome hfree hpc => exact hend ht (by simp [hfree.2]) fun _ => rfl
  | wake ht hhome hfree hpc => exact hend ht (by simp [hfree.2]) fun _ => rfl
  | doWork hk hx hd => exact h.modify (fun _ _ _ _ hcall => hcall) fun _ _ _ he _ => he
  | quiesceTake ht hfree hq hv ht' => exact htake hv ht'
  | _ => exact h

/-! ## The load -/

/-- The task of a call that is not handed over. -/
def Call.holds (q : Task → Bool) : Option Call → Nat
  | some (.checked _ _ x) => (q x).toNat
  | _ => 0

@[simp] theorem Call.holds_none (q : Task → Bool) : Call.holds q none = 0 := rfl

@[simp] theorem Call.holds_checked (q : Task → Bool) (callee : Callee) (b : Bool) (x : Task) :
    Call.holds q (some (.checked callee b x)) = (q x).toNat := rfl

@[simp] theorem Call.holds_claimed (q : Task → Bool) (j id : Nat) :
    Call.holds q (some (.claimed j id)) = 0 := rfl

/-- The number of the tasks with `q` in the queue, on the stack and in the call of a thread. -/
def Thread.holds (q : Task → Bool) (th : Thread) : Nat :=
  th.stack.countP q + (th.queue.countP fun e => q e.task) + Call.holds q th.call

/-- The task of the `k`-th call of `RunBlockingTask` has `q`. -/
def gave (q : Task → Bool) (given : List Task) (k : Nat) : Bool := given[k]?.any q

/-- The number of tasks with `q` that are held or given to the dynamic threads. -/
def St.load (s : St) (q : Task → Bool) : Nat :=
  (s.threads.map (Thread.holds q)).sum + BlockingWorkQueue.due (gave q s.given) s.dynamic

variable {q : Task → Bool}

theorem load_modify {t : Nat} {th : Thread} {f : Thread → Thread} (ht : s.threads[t]? = some th) :
    (s.modify t f).load q + th.holds q = s.load q + (f th).holds q := by
  have := sum_modify (w := Thread.holds q) (f := f) ht
  simp only [St.load, St.modify]
  omega

theorem load_setCall {t : Nat} {th : Thread} (call : Option Call) (ht : s.threads[t]? = some th) :
    (s.modify t (Thread.setCall call)).load q + Call.holds q th.call =
      s.load q + Call.holds q call := by
  have := load_modify (q := q) (f := Thread.setCall call) ht
  simp only [Thread.holds, Thread.setCall] at this
  omega

theorem load_setStack {t : Nat} {th : Thread} (stack : List Task) (ht : s.threads[t]? = some th) :
    (s.modify t (Thread.setStack stack)).load q + th.stack.countP q =
      s.load q + stack.countP q := by
  have := load_modify (q := q) (f := Thread.setStack stack) ht
  simp only [Thread.holds, Thread.setStack] at this
  omega

theorem load_setPc {t : Nat} {th : Thread} (pc : Pc) (ht : s.threads[t]? = some th) :
    (s.modify t (Thread.setPc pc)).load q = s.load q := by
  have := load_modify (q := q) (f := Thread.setPc pc) ht
  simp only [Thread.holds, Thread.setPc] at this
  omega

theorem load_setQueue {j : Nat} {v : Thread} (f : Thread → List Slot) (hv : s.threads[j]? = some v) :
    (s.modify j fun v => v.setQueue (f v)).load q + (v.queue.countP fun e => q e.task) =
      s.load q + (f v).countP fun e => q e.task := by
  have := load_modify (q := q) (f := fun v => v.setQueue (f v)) hv
  have hset : (v.setQueue (f v)).holds q + (v.queue.countP fun e => q e.task) =
      v.holds q + (f v).countP fun e => q e.task := by
    simp only [Thread.holds, Thread.setQueue]
    omega
  beta_reduce at this
  omega

/-- The call of the thread `t` goes on, while the queue of `j` changes. -/
theorem load_push {t j : Nat} {th v : Thread} (f : Thread → List Slot) (call : Option Call)
    (ht : s.threads[t]? = some th) (hv : s.threads[j]? = some v) :
    ((s.modify j fun v => v.setQueue (f v)).modify t (Thread.setCall call)).load q +
        (v.queue.countP fun e => q e.task) + Call.holds q th.call =
      s.load q + ((f v).countP fun e => q e.task) + Call.holds q call := by
  have h1 := load_setQueue (q := q) f hv
  obtain ⟨th', ht'⟩ : ∃ th', (s.modify j fun v => v.setQueue (f v)).threads[t]? = some th' := by
    rw [St.modify, List.getElem?_modify, ht]
    exact ⟨_, rfl⟩
  have h2 := load_setCall (q := q) call ht'
  obtain ⟨queue, rfl⟩ := eq_setQueue ht ht'
  rw [show (th.setQueue queue).call = th.call from rfl] at h2
  omega

/-- A task is taken from the queue of `j` by the thread `t`. -/
theorem load_take {t j : Nat} {th v : Thread} {x : Task} {rest : List Slot}
    (ht : s.threads[t]? = some th) (hfree : th.Free) (hv : s.threads[j]? = some v)
    (htake : Takes v.queue x rest) :
    ((s.modify j (Thread.setQueue rest)).modify t (Thread.setStack [x])).load q = s.load q := by
  have h1 : (s.modify j (Thread.setQueue rest)).load q + (v.queue.countP fun e => q e.task) =
      s.load q + rest.countP fun e => q e.task := load_setQueue (fun _ => rest) hv
  obtain ⟨th', ht'⟩ : ∃ th', (s.modify j (Thread.setQueue rest)).threads[t]? = some th' := by
    rw [St.modify, List.getElem?_modify, ht]
    exact ⟨_, rfl⟩
  have h2 := load_setStack (q := q) [x] ht'
  obtain ⟨queue, rfl⟩ := eq_setQueue (f := fun _ => rest) ht ht'
  rw [show (th.setQueue queue).stack = [] from hfree.1, List.countP_nil, List.countP_singleton] at h2
  have h3 := htake.countP q
  have h4 : (if q x = true then 1 else 0) = (q x).toNat := by cases q x <;> rfl
  omega

/-- The load of the dynamic threads after a step of them. -/
theorem load_dynamic {d : BlockingWorkQueue.St}
    (hd : BlockingWorkQueue.due (gave q s.given) d =
      BlockingWorkQueue.due (gave q s.given) s.dynamic) : { s with dynamic := d }.load q = s.load q := by
  simp only [St.load, hd]

/-- What is due after a step of `RunBlockingTask` that was given the task `x`. -/
theorem due_given (h : Threads cfg s) {x : Task} {d : BlockingWorkQueue.St}
    (hd : BlockingWorkQueue.step cfg.mMaxNumDynamicThreads s.dynamic .runBlockingTask = some d) :
    BlockingWorkQueue.due (gave q (s.given ++ [x])) d = BlockingWorkQueue.due (gave q s.given) s.dynamic +
      if s.accepts cfg = true then (q x).toNat else 0 := by
  have hnew := BlockingWorkQueue.due_runBlockingTask (gave q (s.given ++ [x])) hd
  have hold := h.dynamic.due_congr (f := gave q (s.given ++ [x])) (g := gave q s.given) fun k hk => by
    rw [gave, gave, List.getElem?_append_left (h.given ▸ hk)]
  have hx : gave q (s.given ++ [x]) s.dynamic.submitted = q x := by
    rw [gave, ← h.given, List.getElem?_concat_length]
    rfl
  rw [hold, hx] at hnew
  rw [hnew, St.accepts]
  simp only [decide_eq_true_eq]

theorem load_runBlockingTask (h : Threads cfg s) {t : Nat} {th : Thread} {isQuiescing : Bool} {x : Task}
    {d : BlockingWorkQueue.St} (ht : s.threads[t]? = some th)
    (hcall : th.call = some (.checked .runBlockingTask isQuiescing x))
    (hd : BlockingWorkQueue.step cfg.mMaxNumDynamicThreads s.dynamic .runBlockingTask = some d) :
    { s.modify t (Thread.setCall none) with
      threads := (s.modify t (Thread.setCall none)).threads ++
        (List.range' s.dynamic.threads.length
          (d.threads.length - s.dynamic.threads.length)).map fun d => Thread.new (.dynamic d)
      dynamic := d
      given := s.given ++ [x]
      mMutex := none }.load q + (q x).toNat =
    s.load q + if s.accepts cfg = true then (q x).toNat else 0 := by
  have hend := load_setCall (q := q) none ht
  have hdue := due_given (q := q) (x := x) h hd
  have hnew : (((List.range' s.dynamic.threads.length
      (d.threads.length - s.dynamic.threads.length)).map fun d => Thread.new (.dynamic d)).map
        (Thread.holds q)).sum = 0 := by
    refine List.sum_eq_zero_iff_forall_eq_nat.mpr fun n hn => ?_
    rw [List.map_map] at hn
    obtain ⟨_, -, rfl⟩ := List.mem_map.mp hn
    rfl
  rw [hcall, Call.holds_checked, Call.holds_none] at hend
  simp only [St.load, St.modify, List.map_append, List.sum_append, hnew] at hend ⊢
  omega

/-! ## The tasks -/

/-- The task has this id. -/
def isTask (k : Nat) (x : Task) : Bool := decide (x.id = k)

/-- The counter is that of the counted tasks, and each task is somewhere, once. -/
structure Tasks (s : St) : Prop where
  pending : s.mNumPendingTasks = s.load Task.counted
  tasks : ∀ k, s.finished.count k + s.refused.count k + s.load (isTask k) =
    if k < s.submitted then 1 else 0

namespace Tasks

/-- Tasks move. -/
theorem same (h : Tasks s) (hload : ∀ q, s'.load q = s.load q)
    (hp : s'.mNumPendingTasks = s.mNumPendingTasks) (hf : s'.finished = s.finished)
    (hr : s'.refused = s.refused) (hs : s'.submitted = s.submitted) : Tasks s' :=
  ⟨by rw [hp, hload, h.pending], fun k => by rw [hf, hr, hload, hs, h.tasks]⟩

/-- The task `x` has returned. -/
theorem finish (h : Tasks s) {x : Task} (hload : ∀ q, s'.load q + (q x).toNat = s.load q)
    (hp : s'.mNumPendingTasks = if x.counted then s.mNumPendingTasks - 1 else s.mNumPendingTasks)
    (hf : s'.finished = x.id :: s.finished) (hr : s'.refused = s.refused)
    (hs : s'.submitted = s.submitted) : Tasks s' := by
  constructor
  · have := hload Task.counted
    have := h.pending
    rw [hp]
    split
    · rename_i hx
      simp only [hx, Bool.toNat_true] at *
      omega
    · rename_i hx
      simp only [hx, Bool.toNat_false] at *
      omega
  · intro k
    have := hload (isTask k)
    have := h.tasks k
    rw [hf, hr, hs, BlockingWorkQueue.count_cons_toNat]
    simp only [isTask] at *
    omega

/-- The task `x` is given back. -/
theorem refuse (h : Tasks s) {x : Task} (hx : x.counted = false)
    (hload : ∀ q, s'.load q + (q x).toNat = s.load q)
    (hp : s'.mNumPendingTasks = s.mNumPendingTasks) (hf : s'.finished = s.finished)
    (hr : s'.refused = x.id :: s.refused) (hs : s'.submitted = s.submitted) : Tasks s' := by
  constructor
  · have := hload Task.counted
    have := h.pending
    rw [hx, Bool.toNat_false] at *
    omega
  · intro k
    have := hload (isTask k)
    have := h.tasks k
    rw [hf, hr, hs, BlockingWorkQueue.count_cons_toNat]
    simp only [isTask] at *
    omega

theorem step (h : Tasks s) (hth : Threads cfg s) (hs : Step cfg s l s') : Tasks s' := by
  cases hs with
  | @call t th callee ht hc hm =>
    have hload : ∀ q, (s.modify t (Thread.setCall
        (some (.checked callee s.isQuiescing ⟨s.submitted, false⟩)))).load q =
          s.load q + (q ⟨s.submitted, false⟩).toNat := by
      intro q
      have := load_setCall (q := q) (some (.checked callee s.isQuiescing ⟨s.submitted, false⟩)) ht
      rw [hc.2.1, Call.holds_checked, Call.holds_none] at this
      omega
    constructor
    · exact h.pending.trans (hload Task.counted).symm
    · intro k
      have h1 := hload (isTask k)
      have h2 := h.tasks k
      simp only [isTask] at h1 h2 ⊢
      show s.finished.count k + s.refused.count k + (s.modify t _).load _ =
        if k < s.submitted + 1 then 1 else 0
      rw [h1]
      by_cases hk : s.submitted = k
      · subst hk
        rw [if_neg (Nat.lt_irrefl _)] at h2
        rw [if_pos (Nat.lt_succ_self _), decide_eq_true rfl, Bool.toNat_true]
        omega
      · rw [decide_eq_false hk, Bool.toNat_false]
        split at h2 <;> split <;> omega
  | @wrap _ t th callee x ht hcall hx =>
    have hload : ∀ q, (s.modify t (Thread.setCall
        (some (.checked callee true { x with counted := true })))).load q + (q x).toNat =
          s.load q + (q { x with counted := true }).toNat := by
      intro q
      have := load_setCall (q := q) (some (.checked callee true { x with counted := true })) ht
      rw [hcall, Call.holds_checked, Call.holds_checked] at this
      omega
    constructor
    · have h1 := hload Task.counted
      have h2 := h.pending
      rw [hx, Bool.toNat_false, Bool.toNat_true] at h1
      exact (congrArg (· + 1) h2).trans h1.symm
    · intro k
      have h1 := hload (isTask k)
      have h2 := h.tasks k
      simp only [isTask] at h1
      exact (congrArg (_ + ·) (Nat.add_right_cancel h1)).trans h2
  | @pushFront _ t j th callee b x ht hcall hx hj =>
    obtain ⟨p, hp⟩ := hth.worker_of_pushesFront ht hj
    obtain ⟨v, hv⟩ := hth.lookup hp
    refine h.same (fun q => ?_) rfl rfl rfl rfl
    have := load_push (q := q) (fun v => ⟨x, false⟩ :: v.queue) (some (.claimed j x.id)) ht hv
    simp only [hcall, Call.holds_checked, Call.holds_claimed, countP_cons_toNat] at this
    omega
  | @fill _ t j id th ht hcall =>
    refine h.same (fun q => ?_) rfl rfl rfl rfl
    cases hv : s.threads[j]? with
    | none =>
      have hnone : s.modify j (Thread.fill id) = s := by
        rw [St.modify, List.modify_eq_self (List.getElem?_eq_none_iff.mp hv)]
      rw [hnone]
      have := load_setCall (q := q) none ht
      rwa [hcall, Call.holds_claimed, Call.holds_none] at this
    | some v =>
      have := load_push (q := q) (fun v => v.queue.map fun e =>
        if e.task.id = id then { e with ready := true } else e) none ht hv
      rw [hcall, Call.holds_claimed, Call.holds_none, List.countP_map,
        show ((fun e : Slot => q e.task) ∘ fun e =>
          if e.task.id = id then { e with ready := true } else e) = fun e => q e.task by
            funext e
            simp only [Function.comp_apply]
            split <;> rfl] at this
      exact Nat.add_right_cancel this
  | @pushBack _ t j th b x ht hcall hx hhome hj =>
    obtain ⟨v, hv⟩ := hth.lookup (Config.mem_mThreadData.mp hj)
    refine h.same (fun q => ?_) rfl rfl rfl rfl
    have := load_push (q := q) (fun v => v.queue ++ [⟨x, true⟩]) none ht hv
    simp only [hcall, Call.holds_checked, Call.holds_none, countP_concat] at this
    omega
  | @inline _ t th callee b x ht hcall hx hc =>
    refine h.same (fun q => ?_) rfl rfl rfl rfl
    have := load_modify (q := q) (f := fun th => (th.setCall none).setStack (x :: th.stack)) ht
    have hmoved : ((th.setCall none).setStack (x :: th.stack)).holds q = th.holds q := by
      simp only [Thread.holds, Thread.setCall, Thread.setStack, hcall, Call.holds_checked,
        Call.holds_none, countP_cons_toNat]
      omega
    rw [hmoved] at this
    exact Nat.add_right_cancel this
  | @refuse _ t th callee b x ht hcall hx =>
    refine h.refuse hx (fun q => ?_) rfl rfl rfl rfl
    have := load_setCall (q := q) none ht
    rwa [hcall, Call.holds_checked, Call.holds_none] at this
  | @runBlockingTask _ t th b x d ht hcall hx hd =>
    have hload := fun q => load_runBlockingTask (q := q) hth ht hcall hd
    cases hacc : s.accepts cfg with
    | true =>
      simp only [hacc, if_true] at hload ⊢
      exact h.same (fun q => Nat.add_right_cancel (hload q)) rfl rfl rfl rfl
    | false =>
      simp only [hacc, Bool.false_eq_true, if_false, Nat.add_zero] at hload ⊢
      rw [hacc, Bool.and_false] at hx
      exact h.refuse hx hload rfl rfl rfl rfl
  | @finish _ t th x rest ht hstack hcall hd =>
    refine h.finish (fun q => ?_) rfl rfl rfl rfl
    have := load_setStack (q := q) rest ht
    rw [hstack, countP_cons_toNat] at this
    show (s.modify t (Thread.setStack rest)).load q + (q x).toNat = s.load q
    omega
  | @finishDynamic _ t d th x dynamic ht hstack hcall hhome hd =>
    refine h.finish (fun q => ?_) rfl rfl rfl rfl
    have h1 := load_setStack (q := q) [] ht
    rw [hstack, countP_cons_toNat] at h1
    have h2 := BlockingWorkQueue.due_step (gave q s.given) (by simp) (by simp) hd
    simp only [St.load, St.modify, List.countP_nil] at h1 h2 ⊢
    omega
  | take ht hhome hfree hpc hv hj htake =>
    exact h.same (fun q => load_take ht hfree hv htake) rfl rfl rfl rfl
  | look ht hhome hfree hpc _ | block ht hhome hfree hpc | wake ht hhome hfree hpc =>
    exact h.same (fun q => load_setPc _ ht) rfl rfl rfl rfl
  | @doWork _ d k x dynamic hk hx hd =>
    obtain ⟨th, ht, -, hfree⟩ := hth.free_of_call hk
    refine h.same (fun q => ?_) rfl rfl rfl rfl
    have h1 := load_setStack (q := q) [x] ht
    have h2 := BlockingWorkQueue.due_call (gave q s.given) hk hd
    rw [hfree.1, countP_cons_toNat, List.countP_nil] at h1
    rw [gave, hx, Option.any_some] at h2
    simp only [St.load, St.modify] at h1 ⊢
    omega
  | @dynamic _ m d hm hd =>
    refine h.same (fun q => load_dynamic ?_) rfl rfl rfl rfl
    rcases hm with ⟨u, rfl⟩ | ⟨u, timeout, rfl⟩
    · exact BlockingWorkQueue.due_step _ (by simp) (by simp) hd
    · exact BlockingWorkQueue.due_step _ (by simp) (by simp) hd
  | quiesceTake ht hfree hq hv htake =>
    exact h.same (fun q => load_take ht hfree hv htake) rfl rfl rfl rfl
  | stopWaiting hq hm hd | threadExited hq hd =>
    exact h.same (fun q => load_dynamic (BlockingWorkQueue.due_step _ (by simp) (by simp) hd))
      rfl rfl rfl rfl
  | _ => exact h.same (fun _ => rfl) rfl rfl rfl rfl

end Tasks

end MultiThreadedWorkQueue

end AsyncLib
