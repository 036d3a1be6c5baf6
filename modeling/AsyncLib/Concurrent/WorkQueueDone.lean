import AsyncLib.Concurrent.WorkQueueInv

/-!
# The shutdown of the workers

`~WorkQueueBase` sets `mDone`, and the workers return when they find all workers blocked and all queues
empty.

* `Proper`: after the destructor has started, no other thread submits a task or calls `Quiesce`.
* `Shutdown`: for every queue that is not empty, some worker has not found it empty in the shutdown.
* `Tasks`: every task is in one place, and is executed by one thread.
* `all_executed`: a task is executed at most once, and when all workers have returned, the queues are
  empty and every accepted task has been executed.
-/

namespace AsyncLib

namespace WorkQueue

open Sys

variable {cfg : Config} {s s' : St} {t j k : Nat} {th : Thread} {l : Label}

/-- After the destructor has started, the other threads submit no tasks, and none is in `Quiesce`. -/
def Proper (cfg : Config) (s : St) : Label → Prop
  | .move t _ => ∀ th, s.threads[t]? = some th → th.pc.Pushes → t < cfg.mNumThreads ∨ s.mDone = false
  | .quiesce _ _ => s.mDone = false
  | .destroy => ∀ th ∈ s.threads, th.quiescing = false
  | .addTask _ _ _ | .finish _ _ | .notifyAll _ => True

instance : (pc : Pc) → Decidable pc.Pushes
  | .pushFront _ _ | .pushBack _ _ | .enqueue _ (_ :: _) _ => isTrue trivial
  | .enqueue _ [] _ | .nextTask | .steal _ _ | .activeThreads | .startLoad | .startCas _ | .spin _ _
  | .stopLoad _ | .stopCas _ _ | .prewait | .scan _ | .cancelWait _ | .stealVictim _ | .addBlocked
  | .readDone | .doneBlocked | .commitWait | .parked | .subBlocked | .cancelDone | .rescan _
  | .notifyDone | .returned | .run | .checkEmpty _ | .notifyLoad | .notifyCas _ | .notify
  | .allBlocked => isFalse id

instance (cfg : Config) (s : St) : (l : Label) → Decidable (Proper cfg s l)
  | .move t _ => inferInstanceAs (Decidable (∀ th ∈ s.threads[t]?, th.pc.Pushes →
      t < cfg.mNumThreads ∨ s.mDone = false))
  | .quiesce _ _ => inferInstanceAs (Decidable (s.mDone = false))
  | .destroy => inferInstanceAs (Decidable (∀ th ∈ s.threads, th.quiescing = false))
  | .addTask _ _ _ | .finish _ _ | .notifyAll _ => isTrue trivial

/-! ## The queues -/

/-- Some worker has not found the queue `j` empty in the shutdown. -/
def Guarded (cfg : Config) (s : St) (j : Nat) : Prop :=
  Below cfg.mNumThreads (fun th => ¬ th.pc.Past j) s.threads

/-- The shutdown passes a queue only when it is empty. -/
structure Shutdown (cfg : Config) (s : St) : Prop where
  done : ∀ th ∈ s.threads, th.pc.Done → s.mDone = true
  queues : ∀ j q, s.queues[j]? = some q → q ≠ [] → Guarded cfg s j

/-- Before the destructor has started, no worker is in the shutdown. -/
theorem Shutdown.guarded (hn : 1 ≤ cfg.mNumThreads) (hth : Threads cfg s) (h : Shutdown cfg s)
    (hd : s.mDone = false) (j : Nat) : Guarded cfg s j := by
  obtain ⟨z, hz⟩ : ∃ z, s.threads[0]? = some z :=
    ⟨_, List.getElem?_eq_getElem (by rw [hth.threads]; omega)⟩
  refine ⟨0, hn, z, hz, fun hp => ?_⟩
  have := h.done z (List.mem_of_getElem? hz) hp.done
  rw [hd] at this
  cases this

/-- One thread has moved. -/
theorem Shutdown.set {y : Thread} (h : Shutdown cfg s) (ht : s.threads[t]? = some th)
    (hthreads : s'.threads = s.threads.set t y) (hdone : s.mDone = true → s'.mDone = true)
    (hy : y.pc.Done → th.pc.Done ∨ s.mDone = true)
    (hqueues : ∀ j q, s'.queues[j]? = some q → q ≠ [] →
      (y.pc.Past j → th.pc.Past j) ∧ Guarded cfg s j ∨ ¬ y.pc.Past j ∧ t < cfg.mNumThreads) :
    Shutdown cfg s' := by
  refine ⟨fun z hz hd => hdone ?_, fun j q hq hne => ?_⟩
  · rw [hthreads] at hz
    rcases List.mem_or_eq_of_mem_set hz with hz | rfl
    · exact h.done z hz hd
    · exact (hy hd).elim (h.done th (List.mem_of_getElem? ht)) id
  · unfold Guarded
    rw [hthreads]
    rcases hqueues j q hq hne with ⟨hpast, hg⟩ | ⟨hpast, hlt⟩
    · exact Below.set hg ht fun hx hp => hx (hpast hp)
    · exact .self hlt ht hpast

/-- A step to a point that is not in the shutdown, which puts no task into a queue. -/
theorem Shutdown.calm {y : Thread} (h : Shutdown cfg s) (ht : s.threads[t]? = some th)
    (hthreads : s'.threads = s.threads.set t y) (hdone : s'.mDone = s.mDone) (hy : ¬ y.pc.Done)
    (hqueues : ∀ (j : Nat) q, s'.queues[j]? = some q → q ≠ [] →
      ∃ q₀, s.queues[j]? = some q₀ ∧ q₀ ≠ []) : Shutdown cfg s' :=
  h.set ht hthreads (fun hd => hdone.trans hd) (fun hd => absurd hd hy) fun j q hq hne => by
    obtain ⟨q₀, hq₀, hne₀⟩ := hqueues j q hq hne
    exact .inl ⟨fun hp => absurd hp.done hy, h.queues j q₀ hq₀ hne₀⟩

/-- The same for a step that leaves the queues alone. -/
theorem Shutdown.stay {y : Thread} (h : Shutdown cfg s) (ht : s.threads[t]? = some th)
    (hthreads : s'.threads = s.threads.set t y) (hdone : s'.mDone = s.mDone) (hy : ¬ y.pc.Done)
    (hqueues : s'.queues = s.queues) : Shutdown cfg s' :=
  h.calm ht hthreads hdone hy fun _ q hq hne => ⟨q, hqueues ▸ hq, hne⟩

theorem Shutdown.move {c : Choice} (hn : 1 ≤ cfg.mNumThreads) (hn' : cfg.mNumThreads < 2 ^ 31)
    (hth : Threads cfg s) (hok : Proper cfg s (.move t c)) (h : Shutdown cfg s)
    (ht : s.threads[t]? = some th) (hm : Moves cfg s t th s') : Shutdown cfg s' := by
  have hworker := (hth.each t th ht).worker
  cases hm with
  | quiet hx =>
    refine h.set ht rfl id hx.done fun j q hq hne => .inl ⟨fun hp => ?_, h.queues j q hq hne⟩
    exact (hx.past j hp).resolve_right fun he => hne (Option.some.inj (hq.symm.trans he))
  | exec hi hperm | hold hi hperm =>
    exact h.calm ht rfl rfl id fun j q hq hne => nonempty_of_set hi hperm hq hne
  | @push _ _ _ _ pc hi _ _ hpush _ _ hpc =>
    have hy : ¬ pc.Done := by
      rcases hpc with rfl | ⟨rfl, -⟩ <;> exact id
    refine h.set ht rfl id (fun hd => absurd hd hy) fun j q hq hne => ?_
    rcases hok th ht hpush with hlt | hd
    · exact .inr ⟨fun hp => hy hp.done, hlt⟩
    · exact .inl ⟨fun hp => absurd hp.done hy, h.guarded hn hth hd j⟩
  | release | inline | refuse | skip | leave | notify => exact h.stay ht rfl rfl id rfl
  | prewait | cancelWait | take | park | wake => exact h.stay ht rfl rfl id rfl
  | cancelDone hp =>
    refine h.set ht rfl id (fun _ => .inl (by rw [hp]; trivial)) fun j q hq hne => .inr ⟨?_, ?_⟩
    · have hj : j < cfg.mNumThreads := hth.queues ▸ (List.getElem?_eq_some_iff.mp hq).1
      exact fun hp => hp (mem_emptyVictims hn hn' hj)
    · exact hworker (by rw [hp]; trivial)
  | notifyDone hp =>
    exact h.set ht rfl id (fun _ => .inl (by rw [hp]; trivial)) fun j q hq hne =>
      .inl ⟨fun _ => by rw [hp]; trivial, h.queues j q hq hne⟩

theorem Shutdown.step (hn : 1 ≤ cfg.mNumThreads) (hn' : cfg.mNumThreads < 2 ^ 31)
    (hth : Threads cfg s) (hok : Proper cfg s l) (h : Shutdown cfg s) (hs : Steps cfg s l s') :
    Shutdown cfg s' := by
  cases hs with
  | move ht hm => exact h.move hn hn' hth hok ht hm
  | addTask ht => exact h.stay ht rfl rfl (idle_submit _ _ _ _ _).done rfl
  | finish ht => exact h.stay ht rfl rfl (idle_resume _ _ _ _ _).1.done rfl
  | quiesce ht => exact h.stay ht rfl rfl id rfl
  | destroy => exact ⟨fun _ _ _ => rfl, h.queues⟩
  | notifyAll => exact ⟨h.done, h.queues⟩

theorem reach_shutdown (hn : 1 ≤ cfg.mNumThreads) (hn' : cfg.mNumThreads < 2 ^ 31)
    (hs : (sys cfg).Reach (Proper cfg) s) : Shutdown cfg s := by
  refine hs.invariant_of (I := Shutdown cfg) (fun s => reach_threads) (fun s hs => ?_)
    fun s l s' hth hi hok hl => hi.step hn hn' hth hok (step_steps hl)
  cases hs
  refine ⟨fun th hm hd => absurd hd (idle_init hm).done, fun j q hq hne => ?_⟩
  exact absurd (List.eq_of_mem_replicate (List.mem_of_getElem? hq)) hne

/-! ## The tasks -/

/-- How often the task `k` is in a queue. -/
def queued (queues : List (List Nat)) (k : Nat) : Nat := (queues.map fun q => q.count k).sum

/-- How often a thread has the task `k` and has not called it. -/
def held (threads : List Thread) (k : Nat) : Nat := (threads.map fun th => th.pc.hands.count k).sum

/-- How often the task `k` is being executed. -/
def running (threads : List Thread) (k : Nat) : Nat := (threads.map fun th => th.stack.count k).sum

theorem held_set (ht : s.threads[t]? = some th) (y : Thread) (k : Nat) :
    held (s.threads.set t y) k + th.pc.hands.count k = held s.threads k + y.pc.hands.count k :=
  sum_set ht

theorem running_set (ht : s.threads[t]? = some th) (y : Thread) (k : Nat) :
    running (s.threads.set t y) k + th.stack.count k = running s.threads k + y.stack.count k :=
  sum_set ht

theorem queued_set {q : List Nat} (hq : s.queues[j]? = some q) (q' : List Nat) (k : Nat) :
    queued (s.queues.set j q') k + q.count k = queued s.queues k + q'.count k :=
  sum_set hq

/-- A pop. -/
theorem queued_pop {x : Nat} {q rest : List Nat} (hq : s.queues[j]? = some q)
    (hperm : q.Perm (x :: rest)) (k : Nat) :
    queued (s.queues.set j rest) k + [x].count k = queued s.queues k := by
  have := queued_set hq rest k
  have hcount := hperm.count_eq k
  rw [List.count_cons] at hcount
  rw [List.count_singleton]
  omega

theorem queued_push {x : Nat} {q q' : List Nat} (hq : s.queues[j]? = some q)
    (hperm : q'.Perm (x :: q)) (k : Nat) :
    queued (s.queues.set j q') k = queued s.queues k + [x].count k := by
  have := queued_set hq q' k
  have hcount := hperm.count_eq k
  rw [List.count_cons] at hcount
  rw [List.count_singleton]
  omega

/-- Every task is in one place. -/
structure Places (s : St) : Prop where
  places : ∀ k, queued s.queues k + held s.threads k + s.log.called.count k +
    s.log.refused.count k = if k < s.log.submitted then 1 else 0
  called : ∀ k, s.log.called.count k = s.log.finished.count k + running s.threads k

/-- The thread `t` moves, and a task may go from one place to another. -/
theorem Places.set {y : Thread} (h : Places s) (ht : s.threads[t]? = some th)
    (hthreads : s'.threads = s.threads.set t y) (hsub : s'.log.submitted = s.log.submitted)
    (hplaces : ∀ k, queued s'.queues k + y.pc.hands.count k + s'.log.called.count k +
      s'.log.refused.count k = queued s.queues k + th.pc.hands.count k + s.log.called.count k +
      s.log.refused.count k)
    (hcalled : ∀ k, s'.log.called.count k + s.log.finished.count k + th.stack.count k =
      s.log.called.count k + s'.log.finished.count k + y.stack.count k) : Places s' := by
  refine ⟨fun k => ?_, fun k => ?_⟩ <;> rw [hthreads]
  · have := held_set ht y k
    have := h.places k
    have := hplaces k
    rw [hsub]
    omega
  · have := running_set ht y k
    have := h.called k
    have := hcalled k
    omega

/-- A step that leaves the tasks where they are. -/
theorem Places.keep {y : Thread} (h : Places s) (ht : s.threads[t]? = some th)
    (hthreads : s'.threads = s.threads.set t y) (hhands : y.pc.hands = th.pc.hands)
    (hstack : y.stack = th.stack) (hqueues : s'.queues = s.queues) (hlog : s'.log = s.log) :
    Places s' :=
  h.set ht hthreads (by rw [hlog]) (fun k => by rw [hlog, hhands, hqueues])
    fun k => by rw [hlog, hstack]

theorem hands_run : Pc.hands .run = [] := rfl

theorem Places.move (h : Places s) (ht : s.threads[t]? = some th) (hm : Moves cfg s t th s') :
    Places s' := by
  cases hm with
  | quiet hx => exact h.keep ht rfl hx.hands rfl rfl rfl
  | skip hp | prewait hp | cancelWait hp | cancelDone hp | take hp | park hp | wake hp
  | notifyDone hp | notify hp | leave hp => exact h.keep ht rfl (by rw [hp]; rfl) rfl rfl rfl
  | exec hq hperm _ hhands =>
    refine h.set ht rfl rfl (fun k => ?_) fun k => ?_
    · have := queued_pop hq hperm k
      simp only [hhands, hands_run, List.count_cons, List.count_nil] at this ⊢
      omega
    · simp only [List.count_cons]
      omega
  | @hold i j x q rest victims hq hperm hp =>
    refine h.set ht rfl rfl (fun k => ?_) fun k => rfl
    have := queued_pop hq hperm k
    have hhands : th.pc.hands = [] := by rw [hp]; rfl
    have hhands' : (Pc.spin (i + 1) (some x)).hands = [x] := rfl
    simp only [hhands, hhands', List.count_nil] at this ⊢
    omega
  | @release x hp =>
    have hhands : th.pc.hands = [x] := by rw [hp]; rfl
    refine h.set ht rfl rfl (fun k => ?_) fun k => ?_
    · simp only [hhands, hands_run, List.count_cons, List.count_nil]
      omega
    · simp only [List.count_cons]
      omega
  | @push j x q q' pc hq hperm hhands _ _ _ hpc =>
    refine h.set ht rfl rfl (fun k => ?_) fun k => rfl
    have := queued_push hq hperm k
    have hhands' : pc.hands = [] := by rcases hpc with rfl | ⟨rfl, -⟩ <;> rfl
    simp only [hhands, hhands', List.count_nil] at this ⊢
    omega
  | inline hhands =>
    refine h.set ht rfl rfl (fun k => ?_) fun k => ?_
    · simp only [hhands, hands_run, List.count_cons, List.count_nil]
      omega
    · simp only [List.count_cons]
      omega
  | @refuse x q hp =>
    have hhands : th.pc.hands = [x] := by rw [hp]; rfl
    refine h.set ht rfl rfl (fun k => ?_) fun k => rfl
    simp only [hhands, hands_run, List.count_cons, List.count_nil]
    omega

/-- A task is submitted. -/
theorem Places.addTask {y : Thread} (h : Places s) (ht : s.threads[t]? = some th)
    (hx : th.pc.hands = []) (hy : y.pc.hands = [s.log.submitted]) (hstack : y.stack = th.stack) :
    Places { s with
      threads := s.threads.set t y, log := { s.log with submitted := s.log.submitted + 1 } } := by
  refine ⟨fun k => ?_, fun k => ?_⟩
  · have hheld := held_set ht y k
    have hplaces := h.places k
    rw [hx, hy, List.count_nil, List.count_singleton] at hheld
    by_cases hk : k = s.log.submitted
    · subst hk
      rw [if_neg (Nat.lt_irrefl _)] at hplaces
      rw [if_pos (beq_self_eq_true _)] at hheld
      rw [if_pos (Nat.lt_succ_self _)]
      simp only
      omega
    · rw [if_neg (by simpa using Ne.symm hk)] at hheld
      have hlt : k < s.log.submitted + 1 ↔ k < s.log.submitted := by omega
      simp only [hlt]
      omega
  · have hrun := running_set ht y k
    have hcalled := h.called k
    rw [hstack] at hrun
    simp only
    omega

theorem Places.step (h : Places s) (hs : Steps cfg s l s') : Places s' := by
  cases hs with
  | move ht hm => exact h.move ht hm
  | addTask ht hp => exact h.addTask ht (by rw [hp]; rfl) (submit_hands _ _ _ _ _) rfl
  | finish ht hp hst =>
    have hx : Pc.hands .run = [] := rfl
    refine h.set ht rfl rfl (fun k => ?_) fun k => ?_
    · rw [hp, hx, (idle_resume _ _ _ _ _).2]
    · simp only [hst, List.count_cons]
      omega
  | quiesce ht hp hst => exact h.keep ht rfl (by rw [hp]; rfl) hst.symm rfl rfl
  | destroy => exact ⟨h.places, h.called⟩
  | notifyAll => exact ⟨h.places, h.called⟩

theorem reach_places {ok : St → Label → Prop} (hs : (sys cfg).Reach ok s) : Places s := by
  refine hs.invariant (fun s hs => ?_) fun s l s' hi _ hl => hi.step (step_steps hl)
  cases hs
  have hzero : ∀ w : Thread → Nat, (∀ th ∈ (init cfg).threads, w th = 0) →
      ((init cfg).threads.map w).sum = 0 := fun w hw =>
    List.sum_eq_zero_iff_forall_eq_nat.mpr fun n hn => by
      obtain ⟨th, hth, rfl⟩ := List.mem_map.mp hn
      exact hw th hth
  refine ⟨fun k => ?_, fun k => ?_⟩
  · have hq : queued (init cfg).queues k = 0 :=
      List.sum_eq_zero_iff_forall_eq_nat.mpr fun n hn => by
        obtain ⟨q, hq, rfl⟩ := List.mem_map.mp hn
        rw [List.eq_of_mem_replicate hq]
        rfl
    have hh : held (init cfg).threads k = 0 := hzero _ fun th hm => by
      rcases List.mem_append.mp hm with hm | hm <;> rw [List.eq_of_mem_replicate hm] <;> rfl
    rw [hq, hh]
    rfl
  · have hr : running (init cfg).threads k = 0 := hzero _ fun th hm => by
      rcases List.mem_append.mp hm with hm | hm <;> rw [List.eq_of_mem_replicate hm] <;> rfl
    rw [hr]
    rfl

/-- A task in the hands of a thread is nowhere else. -/
theorem Places.alone {x : Nat} (h : Places s) (ht : s.threads[t]? = some th)
    (hhands : th.pc.hands = [x]) : x < s.log.submitted ∧ x ∉ s.log.refused ∧
      (∀ u z, s.threads[u]? = some z → u ≠ t → x ∉ z.pc.hands) ∧ ∀ z ∈ s.threads, x ∉ z.stack := by
  have hone : th.pc.hands.count x = 1 := by rw [hhands, List.count_singleton_self]
  have hheld := held_set ht { th with pc := .run } x
  rw [hone, hands_run, List.count_nil] at hheld
  have hplaces := h.places x
  have hlt : x < s.log.submitted := by
    by_contra hlt
    rw [if_neg hlt] at hplaces
    omega
  rw [if_pos hlt] at hplaces
  have hcalled := h.called x
  have hrunning : running s.threads x = 0 := by omega
  refine ⟨hlt, List.count_eq_zero.mp (by omega), fun u z hu hut => ?_, fun z hz => ?_⟩
  · have hsum : (s.threads.map fun th => th.pc.hands.count x).sum ≤ th.pc.hands.count x := by
      rw [hone]
      change held s.threads x ≤ 1
      omega
    exact List.count_eq_zero.mp (weight_eq_zero ht hsum hu hut)
  · exact List.count_eq_zero.mp
      (List.sum_eq_zero_iff_forall_eq_nat.mp hrunning _ (List.mem_map_of_mem hz))

/-! ## The accepted tasks -/

/-- How the thread `t` may have the accepted task `k`: in the spin loop before it is called, and as a
worker or in `Quiesce` then. -/
structure Thread.Fit (n t k : Nat) (th : Thread) : Prop where
  hands : k ∈ th.pc.hands → th.pc.Looking
  stack : n ≤ t → th.quiescing = false → k ∉ th.stack

/-- Where the accepted task `k` is. -/
structure Fits (cfg : Config) (s : St) (k : Nat) : Prop where
  lt : k < s.log.submitted
  refused : k ∉ s.log.refused
  each : Each (fun t th => th.Fit cfg.mNumThreads t k) s.threads

/-- Every accepted task is with the pool, or was executed. -/
structure Accepted (cfg : Config) (s : St) : Prop where
  fits : ∀ k ∈ s.log.accepted, Fits cfg s k
  calm : s.mDone = true → ∀ th ∈ s.threads, th.quiescing = false

/-- The thread `t` moves. -/
theorem Accepted.set {y : Thread} (h : Accepted cfg s) (ht : s.threads[t]? = some th)
    (hthreads : s'.threads = s.threads.set t y) (hsub : s.log.submitted ≤ s'.log.submitted)
    (hfit : ∀ k ∈ s.log.accepted, th.Fit cfg.mNumThreads t k → k < s.log.submitted →
      y.Fit cfg.mNumThreads t k)
    (href : ∀ k ∈ s.log.accepted, k ∉ s'.log.refused)
    (hacc : ∀ k ∈ s'.log.accepted, k ∈ s.log.accepted ∨ Fits cfg s' k)
    (hcalm : s'.mDone = true → s.mDone = true ∧ (th.quiescing = false → y.quiescing = false)) :
    Accepted cfg s' := by
  refine ⟨fun k hk => (hacc k hk).elim (fun hk => ?_) id, fun hd z hz => ?_⟩
  · have hf := h.fits k hk
    refine ⟨Nat.lt_of_lt_of_le hf.lt hsub, href k hk, ?_⟩
    rw [hthreads]
    exact hf.each.set fun _ => hfit k hk (hf.each t th ht) hf.lt
  · obtain ⟨hd, hy⟩ := hcalm hd
    rw [hthreads] at hz
    rcases List.mem_or_eq_of_mem_set hz with hz | rfl
    · exact h.calm hd z hz
    · exact hy (h.calm hd th (List.mem_of_getElem? ht))

/-- A step that leaves the tasks where they are. -/
theorem Accepted.keep {pc : Pc} (h : Accepted cfg s) (ht : s.threads[t]? = some th)
    (hthreads : s'.threads = s.threads.set t { th with pc }) (hlog : s'.log = s.log)
    (hdone : s'.mDone = s.mDone) (hhands : pc.hands = th.pc.hands)
    (hlook : th.pc.Looking → pc.Looking) : Accepted cfg s' := by
  refine h.set ht hthreads (by rw [hlog]) (fun k _ hf _ => ⟨fun hm => hlook (hf.hands (hhands ▸ hm)),
    hf.stack⟩) (fun k hk => ?_) (fun k hk => .inl (hlog ▸ hk)) fun hd => ⟨hdone ▸ hd, id⟩
  rw [hlog]
  exact (h.fits k hk).refused

/-- A task is called. -/
theorem Thread.Fit.exec {n x : Nat} (h : th.Fit n t k)
    (hx : n ≤ t → th.quiescing = false → k ≠ x) :
    Thread.Fit n t k { th with pc := .run, stack := x :: th.stack } where
  hands hm := absurd hm List.not_mem_nil
  stack hn hq hm := by
    rcases List.mem_cons.mp hm with rfl | hm
    · exact hx hn hq rfl
    · exact h.stack hn hq hm

/-- A task that is accepted was in the hands of the thread `t`. -/
theorem Places.fits {x : Nat} {y : Thread} (h : Places s) (ht : s.threads[t]? = some th)
    (hhands : th.pc.hands = [x]) (hy : y.Fit cfg.mNumThreads t x) :
    Each (fun t th => th.Fit cfg.mNumThreads t x) (s.threads.set t y) := by
  obtain ⟨-, -, hothers, hstack⟩ := h.alone ht hhands
  intro u z hu
  by_cases hut : u = t
  · subst hut
    rw [List.getElem?_set_self (List.getElem?_eq_some_iff.mp ht).1] at hu
    exact Option.some.inj hu ▸ hy
  · rw [List.getElem?_set_ne (Ne.symm hut)] at hu
    exact ⟨fun hm => absurd hm (hothers u z hu hut), fun _ _ => hstack z (List.mem_of_getElem? hu)⟩

theorem Accepted.move (hth : Threads cfg s) (hp : Places s) (h : Accepted cfg s)
    (ht : s.threads[t]? = some th) (hm : Moves cfg s t th s') : Accepted cfg s' := by
  have hok := hth.each t th ht
  have hworker : th.pc.Workers → ∀ {P : Prop}, cfg.mNumThreads ≤ t → P := fun hw {P} hle =>
    absurd (hok.worker hw) (by omega)
  have href : ∀ k ∈ s.log.accepted, k ∉ s.log.refused := fun k hk => (h.fits k hk).refused
  cases hm with
  | quiet hx => exact h.keep ht rfl rfl rfl hx.hands hx.looking.mpr
  | skip hp | prewait hp | cancelWait hp | cancelDone hp | take hp | park hp | wake hp
  | notifyDone hp | notify hp =>
    exact h.keep ht rfl rfl rfl (by rw [hp]; rfl) (by rw [hp]; exact id)
  | exec _ _ _ _ hhome =>
    refine h.set ht rfl (Nat.le_refl _) (fun k _ hf _ => hf.exec fun hle hq => ?_) href (fun _ => .inl)
      fun hd => ⟨hd, id⟩
    rcases hhome with hw | hw
    · exact hworker hw hle
    · rw [hok.quiesces hw] at hq
      cases hq
  | hold _ _ hpc =>
    refine h.set ht rfl (Nat.le_refl _) (fun k _ hf _ => ⟨fun _ => trivial, fun hle => ?_⟩) href
      (fun _ => .inl) fun hd => ⟨hd, id⟩
    exact hworker (by rw [hpc]; trivial) hle
  | release hpc =>
    refine h.set ht rfl (Nat.le_refl _) (fun k _ hf _ => hf.exec fun hle _ => ?_) href (fun _ => .inl)
      fun hd => ⟨hd, id⟩
    exact hworker (by rw [hpc]; trivial) hle
  | @push j x q q' pc _ _ hhands _ _ _ hpc =>
    obtain ⟨hlt, hnot, -, hstack⟩ := hp.alone ht hhands
    have hpc' : pc.hands = [] := by rcases hpc with rfl | ⟨rfl, -⟩ <;> rfl
    have hnil : ∀ k, k ∉ pc.hands := fun k => by rw [hpc']; exact List.not_mem_nil
    refine h.set ht rfl (Nat.le_refl _) (fun k _ hf _ => ⟨fun hm => absurd hm (hnil k), hf.stack⟩) href
      (fun k hk => (List.mem_cons.mp hk).elim (fun he => .inr ?_) .inl) fun hd => ⟨hd, id⟩
    subst he
    exact ⟨hlt, hnot, hp.fits ht hhands ⟨fun hm => absurd hm (hnil k),
      fun _ _ => hstack th (List.mem_of_getElem? ht)⟩⟩
  | @inline x hhands hlook =>
    obtain ⟨hlt, hnot, -, -⟩ := hp.alone ht hhands
    refine h.set ht rfl (Nat.le_refl _) (fun k _ hf _ => hf.exec fun _ _ he => ?_) href (fun k hk => ?_)
      fun hd => ⟨hd, id⟩
    · exact hlook (hf.hands (by rw [hhands, he]; exact List.mem_singleton_self x))
    · simp only at hk
      split at hk
      · rename_i htn
        refine (List.mem_cons.mp hk).elim (fun he => .inr ?_) .inl
        subst he
        exact ⟨hlt, hnot, hp.fits ht hhands ⟨fun hm => absurd hm List.not_mem_nil,
          fun hle => absurd htn (by omega)⟩⟩
      · exact .inl hk
  | @refuse x q hpc =>
    refine h.set ht rfl (Nat.le_refl _) (fun k _ hf _ => ⟨fun hm => absurd hm List.not_mem_nil,
      hf.stack⟩) (fun k hk hm => ?_) (fun _ => .inl) fun hd => ⟨hd, id⟩
    rcases List.mem_cons.mp hm with rfl | hm
    · have := ((h.fits k hk).each t th ht).hands (by rw [hpc]; exact List.mem_singleton_self k)
      rw [hpc] at this
      exact this
    · exact href k hk hm
  | leave hpc =>
    refine h.set ht rfl (Nat.le_refl _) (fun k _ hf _ => ⟨fun hm => absurd hm List.not_mem_nil,
      fun _ _ => ?_⟩) href (fun _ => .inl) fun hd => ⟨hd, fun _ => rfl⟩
    have : th.stack = [] := hok.looking (by rw [hpc]; trivial)
    rw [show ({ th with pc := .run, quiescing := false } : Thread).stack = th.stack from rfl, this]
    exact List.not_mem_nil

theorem Accepted.step (hth : Threads cfg s) (hp : Places s) (hok : Proper cfg s l)
    (h : Accepted cfg s) (hs : Steps cfg s l s') : Accepted cfg s' := by
  have href : ∀ k ∈ s.log.accepted, k ∉ s.log.refused := fun k hk => (h.fits k hk).refused
  cases hs with
  | move ht hm => exact h.move hth hp ht hm
  | addTask ht hpc =>
    refine h.set ht rfl (Nat.le_succ _) (fun k _ hf hlt => ⟨fun hm => ?_, hf.stack⟩) href
      (fun _ => .inl) fun hd => ⟨hd, id⟩
    rw [submit_hands] at hm
    exact absurd (List.mem_singleton.mp hm) (by omega)
  | finish ht hpc hst =>
    refine h.set ht rfl (Nat.le_refl _) (fun k _ hf _ => ⟨fun hm => ?_, fun hle hq hm => ?_⟩) href
      (fun _ => .inl) fun hd => ⟨hd, id⟩
    · rw [(idle_resume _ _ _ _ _).2] at hm
      exact absurd hm List.not_mem_nil
    · exact hf.stack hle hq (by rw [hst]; exact List.mem_cons_of_mem _ hm)
  | quiesce ht =>
    refine h.set ht rfl (Nat.le_refl _) (fun k _ hf _ => ⟨fun hm => absurd hm List.not_mem_nil,
      fun _ _ => List.not_mem_nil⟩) href (fun _ => .inl) fun hd => ?_
    exact absurd (hok.symm.trans hd) Bool.false_ne_true
  | destroy => exact ⟨fun k hk => ⟨(h.fits k hk).lt, (h.fits k hk).refused, (h.fits k hk).each⟩,
      fun _ => hok⟩
  | notifyAll => exact ⟨fun k hk => ⟨(h.fits k hk).lt, (h.fits k hk).refused, (h.fits k hk).each⟩,
      h.calm⟩

theorem reach_accepted (hs : (sys cfg).Reach (Proper cfg) s) : Accepted cfg s := by
  refine hs.invariant_of (I := Accepted cfg) (J := fun s => Threads cfg s ∧ Places s)
    (fun s hs => ⟨reach_threads hs, reach_places hs⟩) (fun s hs => ?_)
    fun s l s' hj hi hok hl => hi.step hj.1 hj.2 hok (step_steps hl)
  cases hs
  exact ⟨fun k hk => absurd hk List.not_mem_nil, fun hd => by cases hd⟩

/-! ## The result -/

/-- All worker loops have returned. -/
def Returned (cfg : Config) (s : St) : Prop :=
  ∀ w < cfg.mNumThreads, ∃ th, s.threads[w]? = some th ∧ th.pc = .returned

/-- A worker that has returned has no tasks. -/
theorem Returned.worker (h : Returned cfg s) (hth : Threads cfg s) (ht : s.threads[t]? = some th)
    (hlt : t < cfg.mNumThreads) : th.pc = .returned ∧ th.stack = [] := by
  obtain ⟨y, hy, hp⟩ := h t hlt
  obtain rfl := Option.some.inj (hy.symm.trans ht)
  exact ⟨hp, (hth.each t y ht).looking (by rw [hp]; trivial)⟩

theorem Returned.mDone (hn : 1 ≤ cfg.mNumThreads) (h : Returned cfg s) (hdown : Shutdown cfg s) :
    s.mDone = true := by
  obtain ⟨th, ht, hp⟩ := h 0 hn
  exact hdown.done th (List.mem_of_getElem? ht) (by rw [hp]; trivial)

/-- Only a worker has a task in its hands without executing one. -/
theorem hand_free {pc : Pc} (hw : ¬ pc.Workers) (hl : pc.Looking) : k ∉ pc.hands := by
  cases pc <;> first | exact absurd trivial hw | exact hl.elim | exact List.not_mem_nil

/-- A task that no thread has. -/
theorem counts_eq_zero (h : ∀ th ∈ s.threads, k ∉ th.pc.hands ∧ k ∉ th.stack) :
    held s.threads k = 0 ∧ running s.threads k = 0 := by
  constructor <;> refine List.sum_eq_zero_iff_forall_eq_nat.mpr fun n hn => ?_ <;>
    obtain ⟨th, hth, rfl⟩ := List.mem_map.mp hn
  · exact List.count_eq_zero.mpr (h th hth).1
  · exact List.count_eq_zero.mpr (h th hth).2

/-- `n ≥ 1` workers (`num_threads` is an `int`), of either pool, any number of other threads and any
tasks: a task is called at most once. When all workers have returned, the queues are empty and every
accepted task has been executed; if the other threads are not in a call either, every task has been
executed that was not given back. -/
theorem all_executed (hn : 1 ≤ cfg.mNumThreads) (hn' : cfg.mNumThreads < 2 ^ 31)
    (hs : (sys cfg).Reach (Proper cfg) s) :
    s.log.called.Nodup ∧ s.log.finished.Nodup ∧
    (Returned cfg s → (∀ q ∈ s.queues, q = []) ∧ (∀ k ∈ s.log.accepted, k ∈ s.log.finished) ∧
      ((∀ t th, s.threads[t]? = some th → cfg.mNumThreads ≤ t → th.pc = .run ∧ th.stack = []) →
        ∀ k < s.log.submitted, k ∈ s.log.finished ∨ k ∈ s.log.refused)) := by
  have hth := reach_threads hs
  have hp := reach_places hs
  have hdown := reach_shutdown hn hn' hs
  have hacc := reach_accepted hs
  have hle : ∀ k, s.log.called.count k ≤ 1 := fun k => by
    have := hp.places k
    split at this <;> omega
  refine ⟨List.nodup_iff_count_le_one.mpr hle, List.nodup_iff_count_le_one.mpr fun k => ?_,
    fun hret => ?_⟩
  · have := hle k
    have := hp.called k
    omega
  have hempty : ∀ q ∈ s.queues, q = [] := by
    intro q hq
    by_contra hne
    obtain ⟨j, hj⟩ := List.mem_iff_getElem?.mp hq
    obtain ⟨w, hw, th, ht, hpast⟩ := hdown.queues j q hj hne
    rw [(hret.worker hth ht hw).1] at hpast
    exact hpast trivial
  have hqueued : ∀ k, queued s.queues k = 0 := fun k =>
    List.sum_eq_zero_iff_forall_eq_nat.mpr fun n hn => by
      obtain ⟨q, hq, rfl⟩ := List.mem_map.mp hn
      rw [hempty q hq]
      rfl
  -- a task that no thread has was executed or given back
  have hdone : ∀ k < s.log.submitted, (∀ th ∈ s.threads, k ∉ th.pc.hands ∧ k ∉ th.stack) →
      k ∈ s.log.finished ∨ k ∈ s.log.refused := by
    intro k hk hnone
    obtain ⟨hheld, hrunning⟩ := counts_eq_zero hnone
    have hplaces := hp.places k
    have hcalled := hp.called k
    rw [hqueued, hheld, if_pos hk] at hplaces
    by_cases hf : k ∈ s.log.finished
    · exact .inl hf
    · rw [List.count_eq_zero.mpr hf] at hcalled
      exact .inr (List.count_pos_iff.mp (by omega))
  have hworker : ∀ t th, s.threads[t]? = some th → t < cfg.mNumThreads → ∀ k, k ∉ th.pc.hands ∧
      k ∉ th.stack := by
    intro t th ht hlt k
    obtain ⟨hpc, hst⟩ := hret.worker hth ht hlt
    rw [hpc, hst]
    exact ⟨List.not_mem_nil, List.not_mem_nil⟩
  refine ⟨hempty, fun k hk => ?_, fun hout k hk => hdone k hk fun th hm => ?_⟩
  · have hf := hacc.fits k hk
    refine (hdone k hf.lt fun th hm => ?_).resolve_right hf.refused
    obtain ⟨t, ht⟩ := List.mem_iff_getElem?.mp hm
    by_cases hlt : t < cfg.mNumThreads
    · exact hworker t th ht hlt k
    · have hfit := hf.each t th ht
      have hw : ¬ th.pc.Workers := fun hw => hlt ((hth.each t th ht).worker hw)
      exact ⟨fun hm => hand_free hw (hfit.hands hm) hm,
        hfit.stack (by omega) (hacc.calm (hret.mDone hn hdown) th hm)⟩
  · obtain ⟨t, ht⟩ := List.mem_iff_getElem?.mp hm
    by_cases hlt : t < cfg.mNumThreads
    · exact hworker t th ht hlt k
    · obtain ⟨hpc, hst⟩ := hout t th ht (by omega)
      rw [hpc, hst]
      exact ⟨List.not_mem_nil, List.not_mem_nil⟩

/-! ### A run to the end -/

/-- One worker of a `NonBlockingWorkQueue`, and one other thread. -/
def one : Config := ⟨.nonBlockingWorkQueue, 1, 1, true⟩

/-- The choice where the source leaves nothing open. -/
def plain : Choice := ⟨0, true, none⟩

/-- The other thread submits a task, which submits another one. The pool is destroyed, and the worker
enters the spin loop. -/
def oneLabels : List Label :=
  [.addTask 1 false plain, .move 1 plain, .move 1 plain, .move 1 plain, .move 0 plain,
    .addTask 0 false plain, .move 0 plain, .move 0 plain, .finish 0 plain, .move 0 plain,
    .finish 0 plain, .destroy, .notifyAll plain] ++ List.replicate 6 (.move 0 plain)

/-- Iteration `i` of the spin loop. -/
def spinState (i : Nat) : St where
  queues := [[]]
  mBlocked := 0
  mDone := true
  mSpinningState := 1
  mEventCount := ⟨∅, ∅, ∅⟩
  threads := [⟨.spin i none, [], false⟩, ⟨.run, [], false⟩]
  destructor := .join
  log := ⟨2, [1, 0], [], [1, 0], [1, 0]⟩

/-- Steps of a worker. -/
theorem reach_worker (t : Nat) (c : Choice) (hlt : t < cfg.mNumThreads) (m : Nat)
    (hs : (sys cfg).Reach (Proper cfg) s)
    (hr : runLabels (WorkQueue.step cfg) s (List.replicate m (.move t c)) = some s') :
    (sys cfg).Reach (Proper cfg) s' := by
  induction m generalizing s with
  | zero =>
    obtain rfl := Option.some.inj hr
    exact hs
  | succ m ih =>
    rw [List.replicate_succ] at hr
    obtain ⟨s₁, h1, h2⟩ := Option.bind_eq_some_iff.mp hr
    have hok : Proper cfg s (.move t c) := fun _ _ _ => .inl hlt
    exact ih (.step hs hok h1) h2

theorem spin_one {i : Nat} (hi : i < one.spinCount) :
    runLabels (WorkQueue.step one) (spinState i) (List.replicate 3 (.move 0 plain)) =
      some (spinState (i + 1)) := by
  have hv : one.stealVictims 0 = [0] := by decide +kernel
  have h : WorkQueue.step one (spinState i) (.move 0 plain) =
      some ((spinState i).goto 0 ⟨.spin i none, [], false⟩ (.steal (.spin i) [0])) := by
    rw [← hv]
    exact if_pos ⟨hi, rfl⟩
  rw [List.replicate_succ, runLabels, h]
  rfl

theorem reach_spin {i : Nat} (hi : i ≤ one.spinCount) :
    (sys one).Reach (Proper one) (spinState i) := by
  induction i with
  | zero => exact reach_guarded (.init rfl) oneLabels (by decide +kernel)
  | succ i ih => exact reach_worker 0 plain (by decide) 3 (ih (by omega)) (spin_one hi)

/-- The state after the spin loop and the shutdown. -/
def oneState : St :=
  (runLabels (WorkQueue.step one) (spinState one.spinCount)
    (List.replicate 13 (.move 0 plain))).getD (init one)

theorem all_executed_one : Returned one oneState ∧ oneState.log.accepted = [1, 0] ∧
    (∀ q ∈ oneState.queues, q = []) ∧ ∀ k ∈ oneState.log.accepted, k ∈ oneState.log.finished := by
  have hret : Returned one oneState := by
    intro w hw
    obtain rfl : w = 0 := Nat.lt_one_iff.mp hw
    exact ⟨⟨.returned, [], false⟩, by decide +kernel, rfl⟩
  have hreach : (sys one).Reach (Proper one) oneState :=
    reach_worker 0 plain (by decide) 13 (reach_spin (Nat.le_refl _)) (by decide +kernel)
  have h := (all_executed (by decide) (by decide) hreach).2.2 hret
  exact ⟨hret, by decide +kernel, h.1, h.2.1⟩

end WorkQueue

end AsyncLib
