import AsyncLib.Concurrent.Victims
import AsyncLib.Lib.Modify
import AsyncLib.Lib.System

/-!
# `CoroutineThreadPool`

`async/coroutine/coroutine_thread_pool.h` and `.cpp`. A worker takes operations from its own queue and
steals from the others, and looks at `mCancelled` before each round. The destructor sets the flag and
joins the workers.

* `Pc`: where a worker is; `St`: the queues as lists, front first. A call of a queue is one step: the
  queue is the deque of `Concurrent/TaskDequeThreads.lean`. Next to other threads, a push may find its
  slot busy and be refused, and a pop may miss a task that is there.
* `step`: other threads schedule operations until the destructor starts, and the coroutines that the
  workers resume at any time.
* `Inv`: an operation is in one queue, in the hand of one worker, or was resumed.
* `pool_drained`: the queues are empty at the end if they are empty when the destructor starts and
  nothing is queued later. `Late`: an operation that is queued then can stay there.
-/

namespace AsyncLib

namespace CoroutineThreadPool

open Sys WorkQueueBase

/-! ## The code -/

/-- `CoroutineTaskDeque::kCapacity`. -/
def kCapacity : Nat := 1024

/-- Where a worker is; an operation is named by the order of scheduling. -/
inductive Pc where
  /-- `while (!mCancelled)`. -/
  | check
  /-- `NextTask`. -/
  | next
  /-- In the loop of `Steal`, at iteration `i`. -/
  | stealing (i victim inc : Nat)
  /-- Before `mAwaitingCoroutine.resume()`. -/
  | resume (op : Nat)
  /-- In it. -/
  | running (op : Nat)
  | left
  deriving DecidableEq, Repr

/-- The queues, the workers, the destructor, and what became of the coroutines. -/
structure St where
  queues : List (List Nat)
  workers : List Pc
  mCancelled : Bool
  /-- The destructor has joined all workers. -/
  joined : Bool
  /-- How many operations were scheduled. -/
  scheduled : Nat
  /-- The operations whose coroutine was resumed, in order. -/
  resumed : List Nat
  deriving DecidableEq, Repr

/-- A step of a worker, with the queues that it asks first, or one of the rest of the program. -/
inductive Label where
  /-- A thread that is no worker schedules an operation; `rnd` is its random number. -/
  | schedule (rnd : UInt32) (refused : Bool)
  /-- The coroutine that the worker `w` has resumed schedules an operation. -/
  | reschedule (w : Nat) (refused : Bool)
  /-- The next step of the worker `w`. -/
  | work (w : Nat) (rnd : UInt32) (miss : Bool)
  /-- The coroutine that the worker `w` has resumed ends, or suspends itself. -/
  | suspend (w : Nat)
  /-- The destructor sets the flag. -/
  | cancel
  /-- Its last `join` returns. -/
  | join
  deriving DecidableEq, Repr

/-- `AddTask`: a task that the queue gives back is resumed at once. -/
def addTask (s : St) (victim : Nat) (push : List Nat → List Nat) (refused : Bool) : Option St :=
  s.queues[victim]?.map fun q =>
    if refused = true ∨ kCapacity ≤ q.length then
      { s with scheduled := s.scheduled + 1, resumed := s.resumed ++ [s.scheduled] }
    else { s with queues := s.queues.set victim (push q), scheduled := s.scheduled + 1 }

/-- The worker `w` goes on at `pc`. -/
def St.goto (s : St) (w : Nat) (pc : Pc) : St := { s with workers := s.workers.set w pc }

/-- The task at the head is taken: `PopFront`. -/
def popFront (q : List Nat) (miss : Bool) : Option (Nat × List Nat) :=
  match q, miss with
  | op :: rest, false => some (op, rest)
  | _, _ => none

/-- `PopBack`. -/
def popBack (q : List Nat) (miss : Bool) : Option (Nat × List Nat) :=
  match q.getLast?, miss with
  | some op, false => some (op, q.dropLast)
  | _, _ => none

/-- The worker `w` has what a pop of the queue `v` returned. -/
def take (s : St) (w v : Nat) (popped : Option (Nat × List Nat)) (none' : Pc) : St :=
  match popped with
  | some (op, rest) => { s with queues := s.queues.set v rest }.goto w (.resume op)
  | none => s.goto w none'

/-- The first iteration of `Steal`. -/
def startSteal (mNumThreads rnd : Nat) : Pc :=
  .stealing 0 (fastReduce rnd mNumThreads)
    ((computeCoprimes mNumThreads).getD (stealIndex mNumThreads rnd) 0)

/-- `WorkerLoop`. -/
def workerLoop (s : St) (w rnd : Nat) (miss : Bool) : Pc → Option St
  | .check => some (s.goto w (if s.mCancelled then .left else .next))
  | .next =>
    s.queues[w]?.map fun q => take s w w (popFront q miss) (startSteal s.workers.length rnd)
  | .stealing i victim inc =>
    if i < s.workers.length then
      s.queues[victim]?.map fun q => take s w victim (popBack q miss)
        (.stealing (i + 1) (nextVictim s.workers.length inc victim) inc)
    else some (s.goto w .check)
  | .resume op => some { s.goto w (.running op) with resumed := s.resumed ++ [op] }
  | .running _ | .left => none

/-- One step; `none` if it is not enabled. -/
def step (s : St) : Label → Option St
  | .schedule rnd refused =>
    if s.mCancelled then none
    else addTask s (fastReduce rnd.toNat s.workers.length) (· ++ [s.scheduled]) refused
  | .reschedule w refused =>
    match s.workers[w]? with
    | some (.running _) => addTask s w (s.scheduled :: ·) refused
    | _ => none
  | .work w rnd miss => s.workers[w]?.bind (workerLoop s w rnd.toNat miss)
  | .suspend w =>
    match s.workers[w]? with
    | some (.running _) => some (s.goto w .check)
    | _ => none
  | .cancel => if s.mCancelled then none else some { s with mCancelled := true }
  | .join =>
    if s.mCancelled = true ∧ ∀ pc ∈ s.workers, pc = .left then some { s with joined := true }
    else none

/-- All workers look for work, and nothing was scheduled. -/
def init (numThreads : Nat) : St where
  queues := List.replicate numThreads []
  workers := List.replicate numThreads .check
  mCancelled := false
  joined := false
  scheduled := 0
  resumed := []

/-- All runs of a pool with `numThreads` workers. -/
def sys (numThreads : Nat) : Sys St Label := ofFun (init numThreads) step

/-! ## The invariant -/

/-- The operation that a worker has taken and not resumed. -/
def Pc.hand : Pc → List Nat
  | .resume op => [op]
  | _ => []

/-- How often an operation is in a queue, in a hand, or among the resumed ones. -/
def St.total (s : St) (op : Nat) : Nat :=
  (s.queues.map (·.count op)).sum + (s.workers.map (·.hand.count op)).sum + s.resumed.count op

/-- Each coroutine that was scheduled is in a queue, in a hand, or was resumed, once. -/
structure Inv (s : St) : Prop where
  total : ∀ op, s.total op = if op < s.scheduled then 1 else 0
  cancelled : .left ∈ s.workers → s.mCancelled = true
  joined : s.joined = true → s.mCancelled = true ∧ ∀ pc ∈ s.workers, pc = .left

theorem inv_init (numThreads : Nat) : Inv (init numThreads) where
  total op := by
    simp [St.total, init, Pc.hand]
  cancelled h := by
    cases List.eq_of_mem_replicate h
  joined := nofun

/-- One more operation. -/
theorem count_new (n op : Nat) :
    (if op < n + 1 then 1 else 0) = (if op < n then 1 else 0) + [n].count op := by
  rw [List.count_singleton]
  by_cases hlt : op < n
  · have hne : n ≠ op := by omega
    simp [hlt, hne, Nat.lt_succ_of_lt hlt]
  · by_cases heq : n = op
    · simp [heq]
    · have hnot : ¬ op < n + 1 := by omega
      simp [hlt, heq, hnot]

section Steps

variable {s s' : St} {w : Nat} {pc pc' : Pc}

/-- A worker moves, and its hand is as it was. -/
theorem total_goto (hw : s.workers[w]? = some pc) (hhand : pc'.hand = pc.hand) (op : Nat) :
    (s.goto w pc').total op = s.total op := by
  have hsum := sum_set (w := fun p : Pc => p.hand.count op) (y := pc') hw
  have hcount : pc'.hand.count op = pc.hand.count op := by rw [hhand]
  show (s.queues.map (·.count op)).sum + ((s.workers.set w pc').map (·.hand.count op)).sum +
    s.resumed.count op = _
  rw [St.total]
  omega

theorem mem_set_left {l : List Pc} (h : .left ∈ l.set w pc') (hne : pc' ≠ .left) : .left ∈ l := by
  rcases List.mem_or_eq_of_mem_set h with h | h
  · exact h
  · exact absurd h.symm hne

/-- A worker that did not leave moves; so the destructor is not through. -/
theorem Inv.not_joined (h : Inv s) (hw : s.workers[w]? = some pc) (hne : pc ≠ .left) :
    s.joined = false :=
  Bool.eq_false_iff.mpr fun hj => hne ((h.joined hj).2 pc (List.mem_of_getElem? hw))

theorem Inv.goto (h : Inv s) (hw : s.workers[w]? = some pc) (hpc : pc ≠ .left)
    (hhand : pc'.hand = pc.hand) (hleft : pc' = .left → s.mCancelled = true) :
    Inv (s.goto w pc') := by
  have hnj := h.not_joined hw hpc
  refine ⟨fun op => (total_goto hw hhand op).trans (h.total op), fun hm => ?_,
    fun hj => absurd (hnj.symm.trans hj) Bool.false_ne_true⟩
  by_cases hl : pc' = .left
  · exact hleft hl
  · exact h.cancelled (mem_set_left hm hl)

/-- A new operation is queued, or resumed at once. -/
theorem Inv.addTask (h : Inv s) {v : Nat} {push : List Nat → List Nat} {refused : Bool}
    (hpush : ∀ q op, (push q).count op = q.count op + [s.scheduled].count op)
    (hs : CoroutineThreadPool.addTask s v push refused = some s') : Inv s' := by
  obtain ⟨q, hq, hs⟩ := Option.map_eq_some_iff.mp hs
  by_cases hfull : refused = true ∨ kCapacity ≤ q.length
  · rw [if_pos hfull] at hs
    subst hs
    refine ⟨fun op => ?_, h.cancelled, h.joined⟩
    show (s.queues.map (·.count op)).sum + (s.workers.map (·.hand.count op)).sum +
      (s.resumed ++ [s.scheduled]).count op = if op < s.scheduled + 1 then 1 else 0
    have htotal := h.total op
    rw [St.total] at htotal
    rw [count_new, ← htotal, List.count_append]
    omega
  · rw [if_neg hfull] at hs
    subst hs
    refine ⟨fun op => ?_, h.cancelled, h.joined⟩
    show ((s.queues.set v (push q)).map (·.count op)).sum +
      (s.workers.map (·.hand.count op)).sum + s.resumed.count op =
        if op < s.scheduled + 1 then 1 else 0
    have hsum := sum_set (w := fun q : List Nat => q.count op) (y := push q) hq
    have hcount := hpush q op
    have htotal := h.total op
    rw [St.total] at htotal
    rw [count_new, ← htotal]
    omega

theorem popFront_count {q rest : List Nat} {miss : Bool} {op : Nat}
    (h : popFront q miss = some (op, rest)) (x : Nat) :
    q.count x = rest.count x + [op].count x := by
  cases q with
  | nil => cases h
  | cons y ys =>
    cases miss with
    | true => cases h
    | false =>
      cases h
      rw [List.count_cons, List.count_singleton]

theorem popBack_count {q rest : List Nat} {miss : Bool} {op : Nat}
    (h : popBack q miss = some (op, rest)) (x : Nat) :
    q.count x = rest.count x + [op].count x := by
  cases hl : q.getLast? with
  | none =>
    unfold popBack at h
    rw [hl] at h
    cases h
  | some y =>
    unfold popBack at h
    rw [hl] at h
    cases miss with
    | true => cases h
    | false =>
      cases h
      rw [← List.count_append, List.dropLast_append_getLast? op hl]

/-- The worker `w`, with an empty hand, takes what a pop returned. -/
theorem Inv.take (h : Inv s) (hw : s.workers[w]? = some pc) (hpc : pc ≠ .left)
    (hhand : pc.hand = []) {v : Nat} {q : List Nat} (hq : s.queues[v]? = some q)
    {popped : Option (Nat × List Nat)}
    (hpop : ∀ op rest, popped = some (op, rest) → ∀ x, q.count x = rest.count x + [op].count x)
    (hnone : pc'.hand = [] ∧ pc' ≠ .left) : Inv (CoroutineThreadPool.take s w v popped pc') := by
  cases hp : popped with
  | none => exact h.goto hw hpc (hnone.1.trans hhand.symm) fun hl => absurd hl hnone.2
  | some p =>
    obtain ⟨op, rest⟩ := p
    have hnj := h.not_joined hw hpc
    refine ⟨fun x => ?_, fun hm => h.cancelled (mem_set_left hm nofun),
      fun hj => absurd (hnj.symm.trans hj) Bool.false_ne_true⟩
    show ((s.queues.set v rest).map (·.count x)).sum +
      ((s.workers.set w (.resume op)).map (·.hand.count x)).sum + s.resumed.count x =
        if x < s.scheduled then 1 else 0
    have hqueues := sum_set (w := fun q : List Nat => q.count x) (y := rest) hq
    have hworkers := sum_set (w := fun p : Pc => p.hand.count x) (y := .resume op) hw
    have hcount := hpop op rest hp x
    have hempty : pc.hand.count x = 0 := by rw [hhand]; rfl
    have hfull : (Pc.resume op).hand.count x = [op].count x := rfl
    have htotal := h.total x
    rw [St.total] at htotal
    omega

theorem Inv.workerLoop (h : Inv s) {rnd : Nat} {miss : Bool} (hw : s.workers[w]? = some pc)
    (hs : CoroutineThreadPool.workerLoop s w rnd miss pc = some s') : Inv s' := by
  cases pc with
  | check =>
    cases hs
    by_cases hc : s.mCancelled = true
    · rw [if_pos hc]
      exact h.goto hw nofun rfl fun _ => hc
    · rw [if_neg hc]
      exact h.goto hw nofun rfl nofun
  | next =>
    obtain ⟨q, hq, rfl⟩ := Option.map_eq_some_iff.mp hs
    exact h.take hw nofun rfl hq (fun op rest he => popFront_count he) ⟨rfl, nofun⟩
  | stealing i victim inc =>
    simp only [CoroutineThreadPool.workerLoop] at hs
    by_cases hi : i < s.workers.length
    · rw [if_pos hi] at hs
      obtain ⟨q, hq, rfl⟩ := Option.map_eq_some_iff.mp hs
      exact h.take hw nofun rfl hq (fun op rest he => popBack_count he) ⟨rfl, nofun⟩
    · rw [if_neg hi] at hs
      cases hs
      exact h.goto hw nofun rfl nofun
  | resume op =>
    cases hs
    have hnj := h.not_joined hw nofun
    refine ⟨fun x => ?_, fun hm => h.cancelled (mem_set_left hm nofun),
      fun hj => absurd (hnj.symm.trans hj) Bool.false_ne_true⟩
    show (s.queues.map (·.count x)).sum +
      ((s.workers.set w (.running op)).map (·.hand.count x)).sum + (s.resumed ++ [op]).count x =
        if x < s.scheduled then 1 else 0
    have hworkers := sum_set (w := fun p : Pc => p.hand.count x) (y := .running op) hw
    have hfull : (Pc.resume op).hand.count x = [op].count x := rfl
    have hempty : (Pc.running op).hand.count x = 0 := rfl
    have htotal := h.total x
    rw [St.total] at htotal
    rw [List.count_append]
    omega
  | running _ | left => cases hs

theorem Inv.step (h : Inv s) {l : Label} (hs : CoroutineThreadPool.step s l = some s') : Inv s' := by
  cases l with
  | schedule rnd refused =>
    simp only [CoroutineThreadPool.step] at hs
    split at hs
    · cases hs
    · exact h.addTask (fun q op => List.count_append) hs
  | reschedule w refused =>
    simp only [CoroutineThreadPool.step] at hs
    split at hs
    · refine h.addTask (fun q op => ?_) hs
      rw [List.count_cons, List.count_singleton]
    · cases hs
  | work w rnd miss =>
    obtain ⟨pc, hw, hs⟩ := Option.bind_eq_some_iff.mp hs
    exact h.workerLoop hw hs
  | suspend w =>
    simp only [CoroutineThreadPool.step] at hs
    split at hs
    · next hw =>
      cases hs
      exact h.goto hw nofun rfl nofun
    · cases hs
  | cancel =>
    simp only [CoroutineThreadPool.step] at hs
    split at hs
    · cases hs
    · cases hs
      exact ⟨h.total, fun _ => rfl, fun hj => ⟨rfl, (h.joined hj).2⟩⟩
  | join =>
    obtain ⟨hc, hs⟩ := Option.ite_none_right_eq_some.mp hs
    cases hs
    exact ⟨h.total, h.cancelled, fun _ => hc⟩

theorem inv_reach {numThreads : Nat} (hs : (sys numThreads).Reach Any s) : Inv s := by
  refine hs.invariant ?_ ?_
  · rintro s rfl
    exact inv_init numThreads
  · intro s l s' h _ hn
    exact h.step hn

end Steps

/-! ## What is left behind -/

/-- The destructor starts when every queue is empty, and no coroutine queues an operation later. -/
def QuietCancel (s : St) : Label → Prop
  | .cancel => ∀ q ∈ s.queues, q = []
  | .reschedule _ refused => s.mCancelled = true → refused = true
  | _ => True

instance (s : St) (l : Label) : Decidable (QuietCancel s l) := by
  cases l <;> unfold QuietCancel <;> infer_instance

/-- No coroutine is resumed twice, and after the destructor all of them were resumed. -/
structure Correct (s : St) : Prop where
  /-- No operation is resumed twice. -/
  once : s.resumed.Nodup
  /-- When all workers were joined, every operation was resumed. -/
  resumed : s.joined = true → ∀ op < s.scheduled, op ∈ s.resumed
  /-- The assertion in `~CoroutineTaskDeque`. -/
  empty : s.joined = true → ∀ q ∈ s.queues, q.length = 0

section Runs

variable {s s' : St} {l : Label} {numThreads : Nat}

/-- The queues are empty from the start of the destructor on. -/
def Drained (s : St) : Prop := s.mCancelled = true → ∀ q ∈ s.queues, q = []

/-- A pop of a queue that is empty takes nothing. -/
theorem Drained.take (h : Drained s) {w v : Nat} {pc' : Pc} {q : List Nat}
    (hq : s.queues[v]? = some q) {popped : Option (Nat × List Nat)}
    (hpop : q = [] → popped = none) :
    Drained (CoroutineThreadPool.take s w v popped pc') := by
  cases hp : popped with
  | none => exact h
  | some p =>
    intro hc
    have hnone := hpop (h hc q (List.mem_of_getElem? hq))
    rw [hp] at hnone
    cases hnone

/-- An operation is not queued once the destructor has started. -/
theorem Drained.addTask (h : Drained s) {v : Nat} {push : List Nat → List Nat} {refused : Bool}
    (hok : s.mCancelled = true → refused = true)
    (hs : CoroutineThreadPool.addTask s v push refused = some s') : Drained s' := by
  obtain ⟨q, -, hs⟩ := Option.map_eq_some_iff.mp hs
  by_cases hfull : refused = true ∨ kCapacity ≤ q.length
  · rw [if_pos hfull] at hs
    subst hs
    exact h
  · rw [if_neg hfull] at hs
    subst hs
    exact fun hc => absurd (.inl (hok hc)) hfull

theorem Drained.step (h : Drained s) (hok : QuietCancel s l)
    (hs : CoroutineThreadPool.step s l = some s') : Drained s' := by
  cases l with
  | schedule rnd refused =>
    simp only [CoroutineThreadPool.step] at hs
    split at hs
    · cases hs
    · next hc => exact h.addTask (fun hc' => absurd hc' hc) hs
  | reschedule w refused =>
    simp only [CoroutineThreadPool.step] at hs
    split at hs
    · exact h.addTask hok hs
    · cases hs
  | work w rnd miss =>
    obtain ⟨pc, hw, hs⟩ := Option.bind_eq_some_iff.mp hs
    cases pc with
    | check =>
      cases hs
      exact h
    | next =>
      obtain ⟨q, hq, rfl⟩ := Option.map_eq_some_iff.mp hs
      exact h.take hq fun he => by rw [he]; rfl
    | stealing i victim inc =>
      simp only [workerLoop] at hs
      by_cases hi : i < s.workers.length
      · rw [if_pos hi] at hs
        obtain ⟨q, hq, rfl⟩ := Option.map_eq_some_iff.mp hs
        exact h.take hq fun he => by rw [he]; rfl
      · rw [if_neg hi] at hs
        cases hs
        exact h
    | resume op =>
      cases hs
      exact h
    | running _ | left => cases hs
  | suspend w =>
    simp only [CoroutineThreadPool.step] at hs
    split at hs
    · cases hs
      exact h
    · cases hs
  | cancel =>
    simp only [CoroutineThreadPool.step] at hs
    split at hs
    · cases hs
    · cases hs
      exact fun _ => hok
  | join =>
    obtain ⟨-, hs⟩ := Option.ite_none_right_eq_some.mp hs
    cases hs
    exact h

theorem Inv.once (h : Inv s) : s.resumed.Nodup := by
  refine List.nodup_iff_count_le_one.mpr fun op => ?_
  have htotal := h.total op
  rw [St.total] at htotal
  split at htotal <;> omega

theorem Inv.correct (h : Inv s) (hd : Drained s) : Correct s := by
  have hempty : s.joined = true → ∀ q ∈ s.queues, q = [] := fun hj => hd (h.joined hj).1
  refine ⟨h.once, fun hj op hop => ?_, fun hj q hq => by rw [hempty hj q hq]; rfl⟩
  have htotal := h.total op
  have hqueues : (s.queues.map (·.count op)).sum = 0 := by
    refine List.sum_eq_zero fun x hx => ?_
    obtain ⟨q, hq, rfl⟩ := List.mem_map.mp hx
    rw [hempty hj q hq]
    rfl
  have hworkers : (s.workers.map (·.hand.count op)).sum = 0 := by
    refine List.sum_eq_zero fun x hx => ?_
    obtain ⟨pc, hpc, rfl⟩ := List.mem_map.mp hx
    rw [(h.joined hj).2 pc hpc]
    rfl
  rw [St.total, hqueues, hworkers, if_pos hop] at htotal
  exact List.count_pos_iff.mp (by omega)

/-! ## An operation that is queued when the flag is set -/

/-- A worker that steals is at a queue of the pool. -/
def Pc.Wf (n : Nat) : Pc → Prop
  | .stealing _ victim inc => victim < n ∧ inc ≤ n
  | _ => True

/-- The sizes of the pool. -/
structure Wf (n : Nat) (s : St) : Prop where
  queues : s.queues.length = n
  workers : s.workers.length = n
  pcs : ∀ pc ∈ s.workers, pc.Wf n

section Sizes

variable {n : Nat}

theorem Wf.goto (h : Wf n s) {w : Nat} {pc : Pc} (hpc : pc.Wf n) : Wf n (s.goto w pc) where
  queues := h.queues
  workers := List.length_set.trans h.workers
  pcs pc' hm := by
    rcases List.mem_or_eq_of_mem_set hm with hm | rfl
    · exact h.pcs _ hm
    · exact hpc

theorem Wf.take (h : Wf n s) {w v : Nat} {pc : Pc} (hpc : pc.Wf n)
    (popped : Option (Nat × List Nat)) :
    Wf n (CoroutineThreadPool.take s w v popped pc) := by
  cases popped with
  | none => exact h.goto hpc
  | some p =>
    have hs : Wf n { s with queues := s.queues.set v p.2 } :=
      ⟨List.length_set.trans h.queues, h.workers, h.pcs⟩
    have hpc : Pc.Wf n (.resume p.1) := trivial
    exact hs.goto hpc

theorem startSteal_wf (hn : 1 ≤ n) (hn' : n < 2 ^ 31) {rnd : Nat} (hr : rnd < 2 ^ 32) :
    (startSteal n rnd).Wf n := by
  obtain ⟨inc, -, hget, hmem⟩ := getElem?_of_lt (stealIndex_lt hn hn' hr)
  refine ⟨fastReduce_lt hr hn (by omega), ?_⟩
  rw [hget]
  exact (mem_computeCoprimes.mp hmem).2.1

theorem Wf.workerLoop (h : Wf n s) (hn : 1 ≤ n) (hn' : n < 2 ^ 31) {w rnd : Nat} (hr : rnd < 2 ^ 32)
    {miss : Bool} {pc : Pc} (hw : s.workers[w]? = some pc)
    (hs : CoroutineThreadPool.workerLoop s w rnd miss pc = some s') : Wf n s' := by
  cases pc with
  | check =>
    cases hs
    by_cases hc : s.mCancelled = true
    · rw [if_pos hc]
      exact h.goto trivial
    · rw [if_neg hc]
      exact h.goto trivial
  | next =>
    obtain ⟨q, -, rfl⟩ := Option.map_eq_some_iff.mp hs
    rw [h.workers]
    exact h.take (startSteal_wf hn hn' hr) _
  | stealing i victim inc =>
    have hpc : victim < n ∧ inc ≤ n := h.pcs _ (List.mem_of_getElem? hw)
    simp only [CoroutineThreadPool.workerLoop] at hs
    by_cases hi : i < s.workers.length
    · rw [if_pos hi] at hs
      obtain ⟨q, -, rfl⟩ := Option.map_eq_some_iff.mp hs
      have hnext : Pc.Wf n (.stealing (i + 1) (nextVictim s.workers.length inc victim) inc) := by
        refine ⟨?_, hpc.2⟩
        rw [h.workers, nextVictim_eq hn' hpc.1 hpc.2]
        exact Nat.mod_lt _ hn
      exact h.take hnext _
    · rw [if_neg hi] at hs
      cases hs
      exact h.goto trivial
  | resume op =>
    cases hs
    have hgoto : Wf n (s.goto w (.running op)) := h.goto trivial
    exact ⟨hgoto.queues, hgoto.workers, hgoto.pcs⟩
  | running _ | left => cases hs

theorem Wf.addTask (h : Wf n s) {v : Nat} {push : List Nat → List Nat} {refused : Bool}
    (hs : CoroutineThreadPool.addTask s v push refused = some s') : Wf n s' := by
  obtain ⟨q, -, hs⟩ := Option.map_eq_some_iff.mp hs
  split at hs
  · subst hs
    exact ⟨h.queues, h.workers, h.pcs⟩
  · subst hs
    exact ⟨List.length_set.trans h.queues, h.workers, h.pcs⟩

theorem Wf.step (h : Wf n s) (hn : 1 ≤ n) (hn' : n < 2 ^ 31)
    (hs : CoroutineThreadPool.step s l = some s') : Wf n s' := by
  cases l with
  | schedule rnd refused =>
    simp only [CoroutineThreadPool.step] at hs
    split at hs
    · cases hs
    · exact h.addTask hs
  | reschedule w refused =>
    simp only [CoroutineThreadPool.step] at hs
    split at hs
    · exact h.addTask hs
    · cases hs
  | work w rnd miss =>
    obtain ⟨pc, hw, hs⟩ := Option.bind_eq_some_iff.mp hs
    exact h.workerLoop hn hn' rnd.toNat_lt hw hs
  | suspend w =>
    simp only [CoroutineThreadPool.step] at hs
    split at hs
    · cases hs
      exact h.goto trivial
    · cases hs
  | cancel =>
    simp only [CoroutineThreadPool.step] at hs
    split at hs
    · cases hs
    · cases hs
      exact ⟨h.queues, h.workers, h.pcs⟩
  | join =>
    obtain ⟨-, hs⟩ := Option.ite_none_right_eq_some.mp hs
    cases hs
    exact ⟨h.queues, h.workers, h.pcs⟩

theorem wf_reach (hn : 1 ≤ n) (hn' : n < 2 ^ 31) (hs : (sys n).Reach Any s) : Wf n s := by
  refine hs.invariant ?_ fun s l s' h _ hstep => h.step hn hn' hstep
  rintro s rfl
  refine ⟨List.length_replicate, List.length_replicate, fun pc hpc => ?_⟩
  rw [List.eq_of_mem_replicate hpc]
  trivial

/-- The destructor has started, and an operation is in a queue. -/
structure Late (n : Nat) (s : St) : Prop where
  wf : Wf n s
  cancelled : s.mCancelled = true
  queued : ∃ q ∈ s.queues, q ≠ []

/-- How far a worker is from the end of its loop. -/
def Pc.rank (n : Nat) : Pc → Nat
  | .left => 0
  | .check => 1
  | .running _ => 2
  | .resume _ => 3
  | .stealing i _ _ => 2 + (n - i)
  | .next => 3 + n

/-- A move of a worker whose pop misses. -/
theorem Late.goto (h : Late n s) {w : Nat} {pc : Pc} (hw : s.workers[w]? = some pc) (pc' : Pc)
    (hpc : pc'.Wf n) (hlt : pc'.rank n < pc.rank n) :
    Late n (s.goto w pc') ∧
      ((s.goto w pc').workers.map (Pc.rank n)).sum < (s.workers.map (Pc.rank n)).sum := by
  have hsum := sum_set (w := Pc.rank n) (y := pc') hw
  refine ⟨⟨h.wf.goto hpc, h.cancelled, h.queued⟩, ?_⟩
  show ((s.workers.set w pc').map (Pc.rank n)).sum < _
  omega

/-- A worker that did not leave can go on without a task. -/
theorem Late.next (h : Late n s) (hn : 1 ≤ n) (hn' : n < 2 ^ 31) {w : Nat} {pc : Pc}
    (hw : s.workers[w]? = some pc) (hne : pc ≠ .left) :
    ∃ l s', CoroutineThreadPool.step s l = some s' ∧ Late n s' ∧
      (s'.workers.map (Pc.rank n)).sum < (s.workers.map (Pc.rank n)).sum := by
  have hstep : ∀ s', workerLoop s w (0 : UInt32).toNat true pc = some s' →
      CoroutineThreadPool.step s (.work w 0 true) = some s' := fun s' hs => by
    show s.workers[w]?.bind _ = _
    rw [hw]
    exact hs
  have hwlt : w < s.workers.length := (List.getElem?_eq_some_iff.mp hw).1
  have hqueue : ∀ v, v < n → ∃ q, s.queues[v]? = some q := fun v hv =>
    ⟨_, List.getElem?_eq_getElem (h.wf.queues ▸ hv)⟩
  cases pc with
  | check =>
    have hgoto := h.goto hw .left trivial (Nat.zero_lt_one)
    refine ⟨.work w 0 true, _, hstep _ ?_, hgoto⟩
    show some (s.goto w (if s.mCancelled then .left else .next)) = _
    rw [if_pos h.cancelled]
  | next =>
    obtain ⟨q, hq⟩ := hqueue w (h.wf.workers ▸ hwlt)
    have hpop : popFront q true = none := by cases q <;> rfl
    have hgoto := h.goto hw (startSteal n (0 : UInt32).toNat)
      (startSteal_wf hn hn' (by decide)) (by simp only [startSteal, Pc.rank]; omega)
    refine ⟨.work w 0 true, _, hstep _ ?_, hgoto⟩
    show s.queues[w]?.map _ = _
    rw [hq, Option.map_some, hpop, h.wf.workers]
    rfl
  | stealing i victim inc =>
    have hpc : victim < n ∧ inc ≤ n := h.wf.pcs _ (List.mem_of_getElem? hw)
    by_cases hi : i < n
    · obtain ⟨q, hq⟩ := hqueue victim hpc.1
      have hpop : popBack q true = none := by unfold popBack; cases q.getLast? <;> rfl
      have hgoto := h.goto hw (.stealing (i + 1) (nextVictim n inc victim) inc)
        ⟨by rw [nextVictim_eq hn' hpc.1 hpc.2]; exact Nat.mod_lt _ hn, hpc.2⟩
        (by simp only [Pc.rank]; omega)
      refine ⟨.work w 0 true, _, hstep _ ?_, hgoto⟩
      show (if i < s.workers.length then s.queues[victim]?.map _ else _) = _
      rw [h.wf.workers, if_pos hi, hq, Option.map_some, hpop]
      rfl
    · have hgoto := h.goto hw .check trivial (by simp only [Pc.rank]; omega)
      refine ⟨.work w 0 true, _, hstep _ ?_, hgoto⟩
      show (if i < s.workers.length then _ else some (s.goto w .check)) = _
      rw [h.wf.workers, if_neg hi]
  | resume op =>
    obtain ⟨hl, hr⟩ := h.goto hw (.running op) trivial (Nat.lt_succ_self 2)
    exact ⟨.work w 0 true, { s.goto w (.running op) with resumed := s.resumed ++ [op] }, hstep _ rfl,
      ⟨⟨hl.wf.queues, hl.wf.workers, hl.wf.pcs⟩, hl.cancelled, hl.queued⟩, hr⟩
  | running op =>
    have hgoto := h.goto hw .check trivial (Nat.lt_succ_self 1)
    refine ⟨.suspend w, _, ?_, hgoto⟩
    simp only [CoroutineThreadPool.step, hw]
  | left => exact absurd rfl hne

/-- The workers can leave the operation where it is. -/
theorem Late.join (h : Late n s) (hn : 1 ≤ n) (hn' : n < 2 ^ 31) :
    ∃ ls s', (sys n).Path Any s ls s' ∧ s'.joined = true ∧ ¬ Correct s' := by
  induction hm : (s.workers.map (Pc.rank n)).sum using Nat.strongRecOn generalizing s with
  | ind m ih =>
    subst hm
    by_cases hall : ∀ pc ∈ s.workers, pc = .left
    · obtain ⟨q, hq, hne⟩ := h.queued
      refine ⟨[.join], { s with joined := true }, .cons trivial (if_pos ⟨h.cancelled, hall⟩) (.nil _),
        rfl, fun hc => hne ?_⟩
      exact List.length_eq_zero_iff.mp (hc.empty rfl q hq)
    · push Not at hall
      obtain ⟨pc, hpc, hne⟩ := hall
      obtain ⟨w, hw⟩ := List.mem_iff_getElem?.mp hpc
      obtain ⟨l, s', hs, hlate, hlt⟩ := h.next hn hn' hw hne
      obtain ⟨ls, s'', hpath, hend⟩ := ih _ hlt hlate rfl
      exact ⟨l :: ls, s'', .cons trivial hs hpath, hend⟩

end Sizes

/-- A step that does not meet the condition leaves an operation in a queue. -/
theorem late_of_step {n : Nat} (hwf : Wf n s') (hs : CoroutineThreadPool.step s l = some s')
    (hbad : ¬ QuietCancel s l) : Late n s' := by
  cases l with
  | cancel =>
    simp only [CoroutineThreadPool.step] at hs
    split at hs
    · cases hs
    · cases hs
      refine ⟨hwf, rfl, ?_⟩
      unfold QuietCancel at hbad
      push Not at hbad
      exact hbad
  | reschedule w refused =>
    unfold QuietCancel at hbad
    push Not at hbad
    obtain ⟨hc, hr⟩ := hbad
    simp only [CoroutineThreadPool.step] at hs
    split at hs
    · obtain ⟨q, hq, hs⟩ := Option.map_eq_some_iff.mp hs
      split at hs
      · rename_i hfull
        subst hs
        refine ⟨hwf, hc, q, List.mem_of_getElem? hq, fun he => ?_⟩
        rw [he] at hfull
        exact hfull.elim hr (by decide)
      · subst hs
        obtain ⟨hlt, -⟩ := List.getElem?_eq_some_iff.mp hq
        exact ⟨hwf, hc, _, List.mem_set hlt _, List.cons_ne_nil _ _⟩
    · cases hs
  | schedule _ _ | work _ _ _ | suspend _ | join => exact absurd trivial hbad

/-- **Every operation is resumed before the destructor has joined the workers, and the queues are
empty then, in the runs in which the destructor starts when the queues are empty and no coroutine
queues an operation later. After any other start of the destructor, or such an operation, the workers
can leave without it.** -/
theorem pool_drained (numThreads : Nat) (hn : 1 ≤ numThreads) (hn' : numThreads < 2 ^ 31) :
    (∀ s, (sys numThreads).Reach QuietCancel s → Correct s) ∧
      (∀ s, (sys numThreads).Reach Any s → s.resumed.Nodup) ∧
      ∀ s l s', (sys numThreads).Reach Any s → (sys numThreads).next s l s' → ¬ QuietCancel s l →
        ∃ ls s'', (sys numThreads).Path Any s' ls s'' ∧ s''.joined = true ∧ ¬ Correct s'' := by
  refine ⟨fun s hs => ?_, fun s hs => (inv_reach hs).once, fun s l s' hs hstep hbad => ?_⟩
  · have hdrained : Drained s := by
      refine hs.invariant ?_ fun s l s' hd hok hn => hd.step hok hn
      rintro s rfl
      exact nofun
    exact (inv_reach (hs.mono fun _ _ _ => trivial)).correct hdrained
  · exact (late_of_step (wf_reach hn hn' (.step hs trivial hstep)) hstep hbad).join hn hn'

/-- An operation is scheduled, the destructor starts, and the worker looks at the flag. -/
theorem not_pool_drained : ¬ ∀ s, (sys 1).Reach Any s → Correct s := by
  intro h
  have hr : ∀ s, runLabels step (init 1) [.schedule 0 false, .cancel, .work 0 0 false, .join] =
      some s → Correct s := fun s hs =>
    h s (reach_runLabels (fun _ => True) (.init rfl) _ (fun _ _ => trivial) hs)
  exact absurd ((hr _ rfl).empty rfl [0] (by decide)) (by decide)

/-- The worker resumes an operation, whose coroutine schedules another one, and then that one. -/
theorem pool_drained_two : ∃ s, s.joined = true ∧ s.resumed = [0, 1] ∧ Correct s := by
  have hr : ∀ s, runLabels (guarded step QuietCancel) (init 1) [.schedule 0 false, .work 0 0 false,
      .work 0 0 false, .work 0 0 false, .reschedule 0 false, .suspend 0, .work 0 0 false,
      .work 0 0 false, .work 0 0 false, .cancel, .suspend 0, .work 0 0 false, .join] = some s →
      Correct s := fun s hs =>
    (pool_drained 1 (by decide) (by decide)).1 s (reach_guarded (.init rfl) _ hs)
  exact ⟨_, rfl, rfl, hr _ rfl⟩

end Runs

end CoroutineThreadPool

end AsyncLib
