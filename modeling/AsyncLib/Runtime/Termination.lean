import AsyncLib.Lib.Modify
import AsyncLib.Lib.Work
import AsyncLib.Runtime.Evaluation
import AsyncLib.Runtime.Frames

/-!
# The executor comes to rest

Between two events from outside (a promised value is resolved, the caller drops a result) the
threads of a run make finitely many steps, and they never get stuck.

* `work`: a bound of the number of steps that the threads and the queue still make. Every operation
  pays for the code that it leaves, a registered closure pays for the frame that runs it, and a
  counter that is positive pays for the kernel that it makes ready. `work_lt`: each step lowers it.
* `exists_step`: a thread that has not ended can make a step.
* `executor_quiesces`: both together, for every graph with unique producers.
-/

namespace AsyncLib

namespace GraphExecutor

open AsyncValue Sys Agenda AsyncGraph

variable {F V E : Type} {g : AsyncGraph F} {start : Nat}

/-! ## The work that is left -/

section Cost

variable (g : AsyncGraph F) (start : Nat)

/-- `DecreaseReadyCountAndPush` for the users of the result `j` of kernel `k`. -/
def usersCost (k j : Nat) : Nat := (g.getNextUsedBys k j).length + 1

/-- `SetAsyncValuePtr` for this result, the closure of its `ForwardTo`, and its users. -/
def setCost (k j : Nat) : Nat := usersCost g k j + 6

/-- `ProcessUsedByAndSetAsyncValueInfo` for all results of kernel `k`. -/
def resultsCost (k : Nat) : Nat :=
  ((List.range (g.numResults k)).map fun j => setCost g k j + 5).sum

/-- `ProcessReadyKernel`. -/
def kernelCost (k : Nat) : Nat := 3 * (g.argumentsIdx k).length + resultsCost g k + 3

/-- An operation and all that it leads to, up to the kernels that it makes ready. -/
def Op.cost : Op → Nat
  | .pseudoKernel j => usersCost g start j + 5
  | .pseudoAndThen j _ => usersCost g start j + 4
  | .decreaseReadyCounts k j => usersCost g k j
  | .decreaseReadyCount _ => 1
  | .processReadyKernels => 1
  | .enqueueWork k => kernelCost g k + 6
  | .processReadyKernel k => kernelCost g k
  | .addArgs k todo args _ => 3 * todo.length + args.length + resultsCost g k + 2
  | .installIndirect _ _ (.addArg k todo args _) =>
    3 * todo.length + args.length + resultsCost g k + 4
  | .installIndirect _ _ (.takeResult _) => 1
  | .callKernel k args _ => args.length + resultsCost g k + 1
  | .dropRef _ => 1
  | .processUsedBy k j _ => setCost g k j + 5
  | .andThen k j _ => setCost g k j + 4
  | .setAsyncValuePtr k j _ => setCost g k j
  | .casAsyncValuePtr k j _ => usersCost g k j + 5
  | .forwardExisting k j _ _ => usersCost g k j + 4
  | .forwardTo _ _ => 2
  | .getResult _ => 2
  | .dropExecutor => 1

/-- The work in the code of a frame. -/
def codeCost (l : List Op) : Nat := (l.map (Op.cost g start)).sum

/-- A kernel in the queue. -/
def taskCost (k : Nat) : Nat := kernelCost g k + 5

/-- A ready kernel that is not the first. -/
def laterCost (k : Nat) : Nat := kernelCost g k + 6

/-- The work in a frame. -/
def Frame.cost (f : Frame) : Nat :=
  Work.readyCost (kernelCost g) (laterCost g) f.ready + codeCost g start f.code + 1

/-- The frames of a thread. -/
def stackCost (st : List Frame) : Nat := (st.map (Frame.cost g start)).sum

/-- A closure that waits: it will be run in a frame of its own. -/
def waiterCost (w : Waiter Closure) : Nat := codeCost g start (waiterCode start w) + 1

/-- The kernels that are not ready yet. -/
def idleCost (sh : Shared V E) : Nat :=
  Work.idleCost g.numKernels (laterCost g) sh.mArgumentsNotReady

/-- A bound of the steps that the threads and the queue still make. -/
def work (s : St V E) : Nat :=
  (s.threads.map (stackCost g start)).sum + (s.queue.map (taskCost g)).sum +
    Heap.waiting (waiterCost g start) s.sh.heap + idleCost g s.sh

/-- What an operation leaves. -/
def Effect.cost (e : Effect) : Nat :=
  (e.ready.map (laterCost g)).sum + codeCost g start e.code + (e.frames.map (Frame.cost g start)).sum +
    (e.queued.map (taskCost g)).sum

end Cost

section Spending

variable {sh sh' : Shared V E}

theorem laterCost_gt (g : AsyncGraph F) (k : Nat) : kernelCost g k < laterCost g k := by
  unfold laterCost
  omega

@[simp] theorem codeCost_nil : codeCost g start [] = 0 := rfl

@[simp] theorem codeCost_cons (op : Op) (l : List Op) :
    codeCost g start (op :: l) = op.cost g start + codeCost g start l := rfl

@[simp] theorem codeCost_append (l l' : List Op) :
    codeCost g start (l ++ l') = codeCost g start l + codeCost g start l' := by
  simp [codeCost]

theorem cost_waiterFrames (g : AsyncGraph F) (start : Nat) (ws : List (Waiter Closure)) :
    ((waiterFrames start ws).map (Frame.cost g start)).sum = (ws.map (waiterCost g start)).sum := by
  rw [waiterFrames, List.map_map]
  refine congrArg List.sum (List.map_congr_left fun w _ => ?_)
  simp [Frame.cost, Work.readyCost, waiterCost]

theorem codeCost_afterCall (k : Nat) (args outs : List Addr) (hl : outs.length = g.numResults k) :
    codeCost g start (afterCall k args outs) = args.length + resultsCost g k := by
  have hargs : codeCost g start (args.map .dropRef) = args.length := by
    simp [codeCost, Op.cost, Function.comp_def]
  have houts : codeCost g start (outs.zipIdx.map fun p => .processUsedBy k p.2 p.1) =
      resultsCost g k := by
    have hsnd : outs.zipIdx.map Prod.snd = List.range (g.numResults k) := by
      rw [List.zipIdx_map_snd, hl, List.range_eq_range']
    rw [resultsCost, ← hsnd, codeCost, List.map_map, List.map_map]
    rfl
  rw [afterCall, codeCost_append, hargs, houts]

/-- `AddRef` for each result leaves the closures alone. -/
theorem waiting_addRefs {M : Type} [AddCommMonoid M] (f : Waiter Closure → M) (h : Heap V E Closure)
    (as : List Addr) : Heap.waiting f (addRefs h as) = Heap.waiting f h := by
  induction as generalizing h with
  | nil => rfl
  | cons a as ih => exact (ih _).trans (Heap.waiting_addRef f 1)

theorem waiting_allocAll {M : Type} [AddCommMonoid M] (f : Waiter Closure → M) (h : Heap V E Closure)
    (fs : List (Fresh V E)) : Heap.waiting f (allocAll h fs) = Heap.waiting f h := by
  induction fs generalizing h with
  | nil => rfl
  | cons x fs ih => exact (ih _).trans (Heap.waiting_alloc f _ rfl)

theorem waiting_dropReady {M : Type} [AddCommMonoid M] (f : Waiter Closure → M)
    (h : Heap V E Closure) (base : Addr) (fs : List (Fresh V E)) :
    Heap.waiting f (dropReady h base fs) = Heap.waiting f h := by
  induction fs generalizing h base with
  | nil => rfl
  | cons x fs ih =>
    rw [dropReady, ih]
    split
    · exact Heap.waiting_dropRef f 1
    · rfl

/-- A kernel that becomes ready is not idle any more. -/
theorem idleCost_decrease (sh : Shared V E) {u : Nat} (hu : u < g.numKernels) :
    idleCost g { sh with
      mArgumentsNotReady :=
        Function.update sh.mArgumentsNotReady u (sh.mArgumentsNotReady u - 1) } +
      ((if sh.mArgumentsNotReady u = 1 then [u] else []).map (laterCost g)).sum ≤ idleCost g sh :=
  Work.idleCost_decrease _ _ hu

/-- What `GetOrCreateAsyncValuePtr` returns to. -/
theorem Cont.cost_resume (g : AsyncGraph F) (start : Nat) (sh : Shared V E) (c : Cont) (r ind : Nat)
    (v : Addr) : codeCost g start (c.resume sh v).2 < (Op.installIndirect r ind c).cost g start := by
  cases c with
  | addArg k todo args err =>
    simp only [Cont.resume, Op.cost, codeCost_cons, codeCost_nil, List.length_append,
      List.length_singleton]
    omega
  | takeResult q => simp [Cont.resume, Op.cost]

theorem Cont.idleCost_resume (c : Cont) (v : Addr) : idleCost g (c.resume sh v).1 = idleCost g sh := by
  cases c <;> rfl

/-- The operation that calls `GetOrCreateAsyncValuePtr` pays for it. -/
theorem getOrCreate_spends (g : AsyncGraph F) (start : Nat) (sh : Shared V E) {c : Cont} {r : Nat}
    (hc : c.For r) :
    codeCost g start (getOrCreateAsyncValuePtr g sh r c).2 +
      Heap.waiting (waiterCost g start) (getOrCreateAsyncValuePtr g sh r c).1.heap +
      idleCost g (getOrCreateAsyncValuePtr g sh r c).1 <
    (c.op r).cost g start + Heap.waiting (waiterCost g start) sh.heap + idleCost g sh := by
  have hop : ∀ ind, (Op.installIndirect r ind c).cost g start < (c.op r).cost g start := by
    intro ind
    cases c with
    | addArg k todo args err =>
      simp only [Op.cost, Cont.op, List.length_cons]
      omega
    | takeResult q => simp [Op.cost, Cont.op]
  unfold getOrCreateAsyncValuePtr
  split
  · rename_i v hp
    have h1 := c.cost_resume g start sh r 0 v
    have h2 := hop 0
    rw [c.idleCost_resume, c.resume_heap]
    omega
  · have h1 := hop sh.heap.next
    have h2 : Heap.waiting (waiterCost g start) (sh.heap.alloc (indirectCell (g.userCount r + 1))) =
        Heap.waiting (waiterCost g start) sh.heap := Heap.waiting_alloc _ _ rfl
    simp only [codeCost_cons, codeCost_nil, h2]
    show _ + _ + idleCost g sh < _
    omega

/-- An operation pays for what it leaves. -/
theorem exec_spends {c : Choice V E} {op : Op} {e : Effect}
    (he : exec g start sh c op = some (sh', e)) (hv : op.Valid g start)
    (hb : ∀ a ∈ op.touches, a < sh.heap.next)
    (hready : ∀ i v, op = .forwardTo i v → sh.heap.isAvailable v = true) :
    e.cost g start + Heap.waiting (waiterCost g start) sh'.heap + idleCost g sh' <
      op.cost g start + Heap.waiting (waiterCost g start) sh.heap + idleCost g sh := by
  cases op with
  | pseudoKernel j =>
    simp only [exec] at he
    split at he
    · rename_i hj
      subst hj
      cases he
      simp [Effect.cost, Op.cost]
    · split at he
      · cases he
        simp [Effect.cost, Op.cost]
      · split at he
        · cases he
        · split at he
          · cases he
            simp [Effect.cost, Op.cost]
          · split at he <;> cases he <;> simp [Effect.cost, Op.cost]
  | pseudoAndThen j a =>
    cases he
    have hw := Heap.waiting_andThen (waiterCost g start) (.client (.decrease j)) (hb a (by simp [Op.touches]))
    simp only [Effect.cost, cost_waiterFrames, codeCost_nil, List.map_nil, List.sum_nil]
    simp only [waiterCost, waiterCode, codeCost_cons, codeCost_nil, Op.cost] at hw ⊢
    show _ + idleCost g sh < _
    omega
  | decreaseReadyCounts k j =>
    cases he
    simp [Effect.cost, Op.cost, usersCost, codeCost, Function.comp_def]
  | decreaseReadyCount u =>
    cases he
    have hu : u < g.numKernels := hv.2
    have hidle := idleCost_decrease sh hu
    simp only [Effect.cost, Op.cost, codeCost_nil, List.map_nil, List.sum_nil]
    omega
  | processReadyKernels => cases he
  | enqueueWork k =>
    simp only [exec] at he
    split at he
    · cases he
      simp only [Effect.cost, Op.cost, taskFrame, Frame.cost, Work.readyCost, codeCost_cons, codeCost_nil,
        List.map_cons, List.map_nil, List.sum_cons, List.sum_nil]
      show _ + idleCost g sh < _
      omega
    · cases he
      simp only [Effect.cost, Op.cost, taskCost, codeCost_nil, List.map_cons, List.map_nil,
        List.sum_cons, List.sum_nil]
      show _ + idleCost g sh < _
      omega
  | processReadyKernel k =>
    cases he
    simp only [Effect.cost, Op.cost, kernelCost, codeCost_cons, codeCost_nil, List.map_nil,
      List.sum_nil, List.length_nil]
    show _ + idleCost g sh < _
    omega
  | addArgs k todo args err =>
    cases todo with
    | nil =>
      cases he
      simp [Effect.cost, Op.cost]
    | cons r todo =>
      cases he
      have h := getOrCreate_spends g start sh (r := r) (c := .addArg k todo args err) trivial
      simp only [Cont.op] at h
      simpa [Effect.cost] using h
  | installIndirect r ind cont =>
    simp only [exec] at he
    split at he
    · cases he
      have h := cont.cost_resume g start
        { sh with regs := Function.update sh.regs r (.installed ind) } r ind ind
      simp only [Effect.cost, List.map_nil, List.sum_nil, cont.idleCost_resume, cont.resume_heap]
      show _ + idleCost g sh < _
      omega
    · rename_i v hp
      cases he
      have h := cont.cost_resume g start
        { sh with heap := sh.heap.dropRef ind (g.userCount r + 1) } r ind v
      simp only [Effect.cost, List.map_nil, List.sum_nil, cont.idleCost_resume, cont.resume_heap,
        Heap.waiting_dropRef]
      show _ + idleCost g sh < _
      omega
  | callKernel k args err =>
    cases err with
    | some x =>
      cases he
      simp only [Effect.cost, List.map_nil, List.sum_nil, Op.cost, waiting_addRefs,
        codeCost_afterCall k args _ (List.length_replicate ..)]
      show _ + idleCost g sh < _
      omega
    | none =>
      obtain ⟨p, hp, he⟩ := Option.map_eq_some_iff.mp he
      cases he
      simp only [callKernel] at hp
      split at hp
      · cases hp
      · rename_i outs ho
        obtain ⟨⟨hl, -⟩, hp⟩ := Option.ite_none_right_eq_some.mp hp
        cases hp
        simp only [Effect.cost, List.map_nil, List.sum_nil, Op.cost, waiting_dropReady,
          waiting_addRefs, waiting_allocAll, codeCost_afterCall k args outs hl]
        show _ + idleCost g sh < _
        omega
  | dropRef a =>
    cases he
    simp only [Effect.cost, Op.cost, codeCost_nil, List.map_nil, List.sum_nil, Heap.waiting_dropRef]
    show _ + idleCost g sh < _
    omega
  | processUsedBy k j v =>
    simp only [exec] at he
    split at he <;> cases he <;> simp [Effect.cost, Op.cost]
  | andThen k j v =>
    cases he
    have hw := Heap.waiting_andThen (waiterCost g start) (.client (.setAndDecrease k j v))
      (hb v (by simp [Op.touches]))
    simp only [Effect.cost, cost_waiterFrames, codeCost_nil, List.map_nil, List.sum_nil]
    simp only [waiterCost, waiterCode, codeCost_cons, codeCost_nil, Op.cost] at hw ⊢
    show _ + idleCost g sh < _
    omega
  | setAsyncValuePtr k j v =>
    cases he
    simp only [Effect.cost, Op.cost, setCost, codeCost_cons, codeCost_nil, List.map_nil,
      List.sum_nil, Heap.waiting_addRef]
    show _ + idleCost g sh < _
    omega
  | casAsyncValuePtr k j v =>
    simp only [exec] at he
    split at he
    · cases he
      simp only [Effect.cost, Op.cost, codeCost_cons, codeCost_nil, List.map_nil, List.sum_nil]
      show _ + idleCost g sh < _
      omega
    · cases he
      simp [Effect.cost, Op.cost]
  | forwardExisting k j i v =>
    cases he
    have hi := hb i (by simp [Op.touches])
    have hv := hb v (by simp [Op.touches])
    have hw := Heap.waiting_forwardTo (waiterCost g start)
      (h := sh.heap.dropRef v (refAddValue g (g.resultReg k j))) (i := i) (v := v)
      (by simpa using hi) (by simpa using hv)
    have hc : waiterCost g start (.forward i v) = 3 := rfl
    rw [Heap.waiting_dropRef] at hw
    simp only [Effect.cost, cost_waiterFrames, codeCost_cons, codeCost_nil, List.map_nil,
      List.sum_nil, Op.cost]
    show _ + idleCost g sh < _
    split at hw <;> omega
  | forwardTo i v =>
    cases he
    have hw := Heap.waiting_forwardTo (waiterCost g start) (hb i (by simp [Op.touches]))
      (hb v (by simp [Op.touches]))
    rw [if_pos (hready i v rfl), Nat.add_zero] at hw
    simp only [Effect.cost, cost_waiterFrames, codeCost_cons, codeCost_nil, List.map_nil,
      List.sum_nil, Op.cost]
    show _ + idleCost g sh < _
    omega
  | getResult r =>
    cases he
    have h := getOrCreate_spends g start sh (r := r) (c := .takeResult r) rfl
    simp only [Cont.op] at h
    simpa [Effect.cost] using h
  | dropExecutor =>
    cases he
    simp only [Effect.cost, Op.cost, codeCost_nil, List.map_nil, List.sum_nil]
    show _ + idleCost g sh < _
    omega

end Spending

/-! ## Steps of the threads and the queue -/

/-- A step of a thread, or a worker that takes a task. The others come from outside. -/
def Label.isInternal : Label V E → Bool
  | .run _ _ => true
  | .pick _ => true
  | _ => false

/-- A closure of `ForwardTo` runs only when its target is available. -/
def ForwardsReady (s : St V E) : Prop :=
  ∀ i v, .forwardTo i v ∈ s.running → s.sh.heap.isAvailable v = true

section Internal

variable {handles : Addr → Nat} {s s' : St V E} {l : Label V E}

theorem executes_of_frame {t : Nat} {ready : List Nat} {op : Op} {rest : List Op}
    {stack : List Frame} (ht : s.threads[t]? = some (⟨ready, op :: rest⟩ :: stack)) :
    s.Executes op := ⟨t, ready, rest, stack, ht⟩

theorem codeCost_enqueueWork (ks : List Nat) :
    codeCost g start (ks.map .enqueueWork) = (ks.map (laterCost g)).sum := by
  rw [codeCost, List.map_map]
  rfl

/-- **Each step of a thread or of the queue lowers the work that is left.** -/
theorem work_lt (hsafe : Safe g start handles s) (hfwd : ForwardsReady s)
    (hs : step g start s l = some s') (hl : l.isInternal = true) :
    work g start s' < work g start s := by
  cases step_moves hs with
  | @pop t c stack ht =>
    have h := sum_set (w := stackCost g start) (y := stack) ht
    simp only [stackCost, List.map_cons, List.sum_cons, Frame.cost, Work.readyCost, codeCost_nil] at h
    simp only [work]
    omega
  | @ends t c rest stack ht =>
    have h := sum_set (w := stackCost g start) (y := ⟨[], rest⟩ :: stack) ht
    simp only [stackCost, List.map_cons, List.sum_cons, Frame.cost, codeCost_cons, Op.cost] at h
    simp only [work]
    omega
  | @round t c k ks rest stack ht =>
    have h := sum_set (w := stackCost g start) (y := ⟨[], ks.map .enqueueWork ++
      .processReadyKernel k :: .processReadyKernels :: rest⟩ :: stack) ht
    simp only [stackCost, List.map_cons, List.sum_cons, Frame.cost, Work.readyCost, codeCost_cons,
      codeCost_append, codeCost_enqueueWork, Op.cost] at h
    simp only [work]
    omega
  | @exec t c ready op rest stack sh' e ht he =>
    have hop : op ∈ s.running := (executes_of_frame ht).mem_running
    have hspend := exec_spends he (hsafe.flow.valid op (Multiset.mem_add.mpr (.inl hop)))
      (hsafe.bounded.ops op hop) fun i v h => hfwd i v (h ▸ hop)
    have h := sum_set (w := stackCost g start)
      (y := e.frames ++ ⟨ready ++ e.ready, e.code ++ rest⟩ :: stack) ht
    have hready := Work.readyCost_append (laterCost_gt g) ready e.ready
    simp only [stackCost, List.map_append, List.sum_append, List.map_cons, List.sum_cons, Frame.cost,
      codeCost_cons, codeCost_append] at h
    simp only [work, List.map_append, List.sum_append]
    simp only [Effect.cost] at hspend
    omega
  | @pick k hk =>
    have hperm := (List.perm_cons_erase hk).map (taskCost g)
    have hsum := hperm.sum_eq
    simp only [List.map_cons, List.sum_cons] at hsum
    simp only [work, stackCost, List.map_append, List.sum_append, List.map_cons, List.map_nil,
      List.sum_cons, List.sum_nil, taskFrame, Frame.cost, Work.readyCost, codeCost_cons, codeCost_nil, Op.cost]
    simp only [taskCost] at hsum ⊢
    omega
  | resolve => cases hl
  | dropResult => cases hl

/-! ## Forwarding closures -/

/-- A closure of `ForwardTo` was waiting for a value that the step makes available. -/
theorem Does.released {sh sh' : Shared V E} {old new net : List Op}
    (hd : Does g start sh old sh' new net) {i v : Addr} (hnew : .forwardTo i v ∈ new) :
    ∃ a, .forward i v ∈ (sh.heap.cell a).waiters ∧ sh'.heap.isAvailable a = true := by
  -- the only closure whose code has a `ForwardTo` is the one for it
  have hcode : ∀ {ws : List (Waiter Closure)}, .forwardTo i v ∈ waiterOps start ws →
      .forward i v ∈ ws := by
    intro ws h
    obtain ⟨w, hw, hop⟩ := List.mem_flatMap.mp h
    match w with
    | .forward i' v' =>
      cases List.mem_singleton.mp hop
      exact hw
    | .client (.setAndDecrease k j x) => simp [waiterCode] at hop
    | .client (.decrease j) => simp [waiterCode] at hop
  have hclient : ∀ {h : Heap V E Closure} {a : Addr} {c : Closure},
      .forward i v ∉ (h.andThen a (.client c)).2 := by
    intro h a c hm
    unfold Heap.andThen at hm
    split at hm <;> simp at hm
  have hforward : ∀ {h : Heap V E Closure} {x y : Addr}, .forward i v ∈ (h.forwardTo x y).2 →
      .forward i v ∈ (h.cell x).waiters ∧ (h.forwardTo x y).1.isAvailable x = true := by
    intro h x y hm
    obtain ⟨hmem, hv⟩ := Heap.mem_released_forwardTo hm
    refine ⟨hmem, ?_⟩
    rw [Heap.isAvailable, Heap.forwardTo_state, if_pos ⟨rfl, hv⟩]
    exact hv
  cases hd with
  | pseudoAndThen | andThen => exact absurd (hcode hnew) hclient
  | @forwardExisting k j x y hx hy =>
    rcases List.mem_append.mp hnew with h | h
    · obtain ⟨h1, h2⟩ := hforward (hcode h)
      exact ⟨x, by simpa using h1, h2⟩
    · simp at h
  | @forwardTo x y hx hy =>
    rcases List.mem_append.mp hnew with h | h
    · exact ⟨x, hforward (hcode h)⟩
    · simp at h
  | @resolveConcrete a out hp ha hk ho =>
    rcases List.mem_append.mp hnew with h | h
    · refine ⟨a, hcode h, ?_⟩
      rw [Heap.isAvailable, Heap.notifyAvailable_cell, if_pos rfl]
      cases out <;> rfl
    · simp at h
  | @resolveIndirect a out form ty h hp ha hk ho hh =>
    rcases List.mem_append.mp hnew with hm | hm
    · obtain ⟨h1, h2⟩ := hforward (hcode hm)
      refine ⟨a, ?_, h2⟩
      rw [hh] at h1
      exact mem_waiters_alloc rfl h1
    · simp at hm
  | @load r c | @install r ind c | @discard r ind x c => cases c <;> simp [Cont.resume] at hnew
  | callError | call =>
    rcases mem_afterCall hnew with ⟨a, -, h⟩ | ⟨j, x, -, h⟩ <;> cases h
  | decrease =>
    split at hnew <;> simp at hnew
  | _ => simp [taskFrame, Frame.ops] at hnew

/-- The closures of `ForwardTo` run when their targets are available. -/
theorem ForwardsReady.reach {heap : Heap V E Closure} {promised : Addr → Bool}
    {arguments : List Addr} (hw : g.Wired start)
    (hc : Caller g start handles heap promised arguments)
    (hs : (sys g start heap promised arguments).Reach DropsDelivered s) : ForwardsReady s := by
  refine hs.invariant_of (I := ForwardsReady)
    (J := fun s => Safe g start handles s ∧ Forwarding s.sh (s.agenda start))
    (fun s h => ⟨Safe.reach hw hc h, Forwarding.reach hw hc h⟩) (fun s h => ?_)
    fun s l s' hJ h hok hn i v hop => ?_
  · rw [show s = init g start heap promised arguments from h]
    intro i v hop
    rw [running_init] at hop
    rcases mem_mainFrame hop with ⟨j, -, h⟩ | h | ⟨r, -, h⟩ | h <;> cases h
  · obtain ⟨hsafe, hfwd⟩ := hJ
    obtain ⟨old, new, net, R, Q, hd, h1, h2, h3, -⟩ := hsafe.does hn hok
    rw [h2] at hop
    rcases Multiset.mem_add.mp hop with hm | hm
    · obtain ⟨a, hwait, hav⟩ := hd.released (Multiset.mem_coe.mp hm)
      have ha := hfwd.waits a i v hwait
      rw [← ha]
      exact hav
    · have hmem : .forwardTo i v ∈ s.running := by
        rw [h1]
        exact Multiset.mem_add.mpr (.inr hm)
      have hl := hd.later (h3 ▸ hsafe.slots) (h3 ▸ hsafe.resolving)
      exact hl.heap.isAvailable (hsafe.bounded.ops _ hmem v (by simp [Op.touches])) (h i v hmem)

/-! ## Steps from outside -/

/-- A promised value is resolved. -/
def Label.isResolve : Label V E → Bool
  | .resolve _ _ _ => true
  | _ => false

/-- The executor's steps. -/
def Label.spent : Label V E → Nat
  | .run _ _ => 1
  | .pick _ => 1
  | _ => 0

/-- The work that the resolution of a value brings in: the thread that resolves it drops its
reference, and an indirect value may have to wait for the next one. -/
def Label.gained : Label V E → Nat
  | .resolve _ _ _ => 5
  | _ => 0

theorem sum_spent (ls : List (Label V E)) :
    (ls.map Label.spent).sum = ls.countP Label.isInternal := by
  induction ls with
  | nil => rfl
  | cons l ls ih =>
    rw [List.map_cons, List.sum_cons, ih, List.countP_cons, Nat.add_comm]
    cases l <;> rfl

theorem sum_gained (ls : List (Label V E)) :
    (ls.map Label.gained).sum = 5 * ls.countP Label.isResolve := by
  induction ls with
  | nil => rfl
  | cons l ls ih =>
    rw [List.map_cons, List.sum_cons, ih, List.countP_cons, Nat.mul_add, Nat.add_comm]
    cases l <;> rfl

theorem waiterCost_forward (i v : Addr) : waiterCost g start (.forward i v) = 3 := rfl

/-- The resolution of a value lets closures run that were paid for. -/
theorem resolve_spends (g : AsyncGraph F) (start : Nat) {a : Addr} {form : Form} {ty : Nat} {sh sh' : Shared V E}
    {ws : List (Waiter Closure)} (ha : a < sh.heap.next) (hr : resolve sh a form ty = some (sh', ws)) :
    (ws.map (waiterCost g start)).sum + Heap.waiting (waiterCost g start) sh'.heap + idleCost g sh' ≤
      Heap.waiting (waiterCost g start) sh.heap + idleCost g sh + 3 := by
  have hforward : ∀ {h : Heap V E Closure} {v : Addr}, a < h.next → v < h.next →
      ((h.forwardTo a v).2.map (waiterCost g start)).sum +
        Heap.waiting (waiterCost g start) (h.forwardTo a v).1 ≤
      Heap.waiting (waiterCost g start) h + 3 := by
    intro h v ha hv
    have hw := Heap.waiting_forwardTo (waiterCost g start) ha hv
    rw [waiterCost_forward] at hw
    split at hw <;> omega
  unfold resolve at hr
  split at hr
  · rename_i out hk ho
    cases hr
    have hw := Heap.waiting_notifyAvailable (waiterCost g start) (stateOf out) ha
    show _ + Heap.waiting (waiterCost g start) (sh.heap.notifyAvailable a (stateOf out)).1 +
      idleCost g sh ≤ _
    omega
  · rename_i out hk ho
    cases hr
    have hw := hforward (h := sh.heap.alloc
      ((⟨form, ty, out⟩ : Fresh V E).cell (if form = .ready then 1 else 2)))
      (Nat.lt_succ_of_lt ha) (Nat.lt_succ_self sh.heap.next)
    rw [Heap.waiting_alloc _ _ rfl] at hw
    show _ + Heap.waiting (waiterCost g start) (Heap.forwardTo _ a sh.heap.next).1 +
      idleCost g sh ≤ _
    omega
  · cases hr

/-- Each step is paid for by the work that is left and by what a resolution brings in. -/
theorem work_spent (hsafe : Safe g start handles s) (hfwd : ForwardsReady s)
    (hs : step g start s l = some s') :
    work g start s' + l.spent ≤ work g start s + l.gained := by
  cases l with
  | run t c =>
    have := work_lt hsafe hfwd hs rfl
    simp only [Label.spent, Label.gained]
    omega
  | pick k =>
    have := work_lt hsafe hfwd hs rfl
    simp only [Label.spent, Label.gained]
    omega
  | resolve a form ty =>
    cases step_moves hs with
    | @resolve _ _ _ sh' ws hp hr =>
      have hspend := resolve_spends g start (hsafe.bounded.promised a hp) hr
      have hframes := cost_waiterFrames g start ws
      simp only [work, stackCost, Label.spent, Label.gained, List.map_append, List.sum_append,
        List.map_cons, List.map_nil, List.sum_cons, List.sum_nil, hframes, Frame.cost, Work.readyCost,
        codeCost_cons, codeCost_nil, Op.cost]
      omega
  | dropResult r =>
    cases step_moves hs with
    | @dropResult _ a hr ht =>
      simp only [work, Label.spent, Label.gained, Heap.waiting_dropRef]
      exact Nat.le_refl _

/-! ## No thread is stuck -/

/-- A kernel that returns new values. -/
def outcomeOf (n : Nat) (v : V) : Outcome V E :=
  ⟨List.replicate n ⟨.ready, 0, .ok v⟩, (List.range n).map .fresh⟩

theorem mapM_fresh (base : Addr) (args : List Addr) (l : List Nat) :
    (l.map Src.fresh).mapM (Src.addr base args) = some (l.map (base + ·)) := by
  induction l with
  | nil => rfl
  | cons i l ih =>
    rw [List.map_cons, List.mapM_cons, ih]
    rfl

/-- The call of a kernel that returns new values succeeds. -/
theorem callKernel_outcomeOf (sh : Shared V E) (k : Nat) (args : List Addr) (v : V) :
    ∃ p, callKernel g sh (outcomeOf (g.numResults k) v) k args = some p := by
  unfold callKernel
  rw [outcomeOf, mapM_fresh]
  refine ⟨_, if_pos ⟨by simp, fun a ha => ?_⟩⟩
  obtain ⟨i, hi, rfl⟩ := List.mem_map.mp ha
  rw [List.length_replicate]
  exact Nat.add_lt_add_left (List.mem_range.mp hi) _

/-- Every operation can be executed. -/
theorem exec_enabled [Inhabited V] {sh : Shared V E} {op : Op} {A : Multiset Op}
    (hv : op.Valid g start) (hs : Slots g start sh A) (hop : op ≠ .processReadyKernels) :
    ∃ c p, exec g start sh c op = some p := by
  have c : Choice V E := ⟨outcomeOf 0 default, false⟩
  cases op with
  | pseudoKernel j =>
    obtain ⟨a, ha⟩ := hs.starts (g.resultReg start j) (mem_resultsIndex.mpr ⟨j, hv, rfl⟩)
    refine ⟨c, ?_⟩
    simp only [exec, ha, Reg.ptr_direct]
    split
    · exact ⟨_, rfl⟩
    · split
      · exact ⟨_, rfl⟩
      · split
        · exact ⟨_, rfl⟩
        · split <;> exact ⟨_, rfl⟩
  | processReadyKernels => exact absurd rfl hop
  | enqueueWork k => exact ⟨c, _, rfl⟩
  | addArgs k todo args err => cases todo <;> exact ⟨c, _, rfl⟩
  | installIndirect r ind cont =>
    refine ⟨c, ?_⟩
    simp only [exec]
    split <;> exact ⟨_, rfl⟩
  | callKernel k args err =>
    cases err with
    | some e => exact ⟨c, _, rfl⟩
    | none =>
      obtain ⟨p, hp⟩ := callKernel_outcomeOf (g := g) sh k args default
      refine ⟨⟨outcomeOf (g.numResults k) default, false⟩, (p.1, { code := p.2 }), ?_⟩
      simp only [exec, hp, Option.map_some]
  | processUsedBy k j v =>
    refine ⟨c, ?_⟩
    simp only [exec]
    split <;> exact ⟨_, rfl⟩
  | casAsyncValuePtr k j v =>
    refine ⟨c, ?_⟩
    simp only [exec]
    split <;> exact ⟨_, rfl⟩
  | _ => exact ⟨c, _, rfl⟩

/-- The frame whose next operation can be executed makes a step. -/
theorem runFrame_enabled (t : Nat) {c : Choice V E} {ready : List Nat} {op : Op} (rest : List Op)
    (stack : List Frame) {p : Shared V E × Effect} (hop : op ≠ .processReadyKernels)
    (hp : exec g start s.sh c op = some p) :
    ∃ s', runFrame g start s t c ⟨ready, op :: rest⟩ stack = some s' := by
  simp only [runFrame]
  split
  · exact absurd rfl hop
  · exact absurd rfl hop
  · exact ⟨_, by rw [hp, Option.map_some]⟩

/-- **A thread that has not ended can make its next step.** -/
theorem exists_step [Inhabited V] (hsafe : Safe g start handles s)
    (hdr : AllFrames Frame.Drains s) {t : Nat} {st : List Frame} (ht : s.threads[t]? = some st)
    (hne : st ≠ []) : ∃ c s', step g start s (.run t c) = some s' := by
  obtain ⟨⟨ready, code⟩, stack, rfl⟩ := List.exists_cons_of_ne_nil hne
  have hstep : ∀ c, step g start s (.run t c) = runFrame g start s t c ⟨ready, code⟩ stack :=
    fun c => by simp only [step, ht]
  have c : Choice V E := ⟨outcomeOf 0 default, false⟩
  cases code with
  | nil =>
    have hready : ready = [] := by
      rcases hdr _ (List.mem_of_getElem? ht) _ List.mem_cons_self with ⟨pre, post, hcode, -⟩ | h
      · simp at hcode
      · exact h.1
    exact ⟨c, { s with threads := s.threads.set t stack }, (hstep c).trans (if_pos hready)⟩
  | cons op rest =>
    by_cases hop : op = .processReadyKernels
    · subst hop
      cases ready with
      | nil => exact ⟨c, _, (hstep c).trans rfl⟩
      | cons k ks => exact ⟨c, _, (hstep c).trans rfl⟩
    · have hmem : op ∈ s.agenda start :=
        Multiset.mem_add.mpr (.inl (executes_of_frame ht).mem_running)
      obtain ⟨c, p, hp⟩ := exec_enabled (hsafe.flow.valid op hmem) hsafe.slots hop
      obtain ⟨s', hs'⟩ := runFrame_enabled t rest stack hop hp
      exact ⟨c, s', (hstep c).trans hs'⟩

/-! ## The executor comes to rest -/

/-- Every thread has ended and the queue is empty. -/
structure St.Idle (s : St V E) : Prop where
  queue : s.queue = []
  threads : ∀ st ∈ s.threads, st = []

instance (s : St V E) : Decidable s.Idle :=
  decidable_of_iff (s.queue = [] ∧ ∀ st ∈ s.threads, st = [])
    ⟨fun h => ⟨h.1, h.2⟩, fun h => ⟨h.queue, h.threads⟩⟩

theorem St.Idle.running (h : s.Idle) : s.running = 0 := by
  have ht : s.threads.flatMap (fun st => st.flatMap Frame.ops) = [] :=
    List.flatMap_eq_nil_iff.mpr fun st hst => by rw [h.threads st hst]; rfl
  rw [St.running, h.queue, ht]
  rfl

/-- A state that is not idle has a step of its own. -/
theorem exists_internal [Inhabited V] (hsafe : Safe g start handles s)
    (hdr : AllFrames Frame.Drains s) (hidle : ¬ s.Idle) :
    ∃ l s', l.isInternal = true ∧ step g start s l = some s' := by
  cases hq : s.queue with
  | cons k ks =>
    refine ⟨.pick k, _, rfl, if_pos ?_⟩
    rw [hq]
    exact List.mem_cons_self
  | nil =>
    have hex : ∃ st ∈ s.threads, st ≠ [] := by
      by_contra h
      exact hidle ⟨hq, fun st hst => by_contra fun hne => h ⟨st, hst, hne⟩⟩
    obtain ⟨st, hst, hne⟩ := hex
    obtain ⟨t, ht⟩ := List.mem_iff_getElem?.mp hst
    obtain ⟨c, s', hs'⟩ := exists_step hsafe hdr ht hne
    exact ⟨.run t c, s', rfl, hs'⟩

end Internal

section Theorems

variable {nodes : List (AsyncNode F)} {order : HashOrder} {handles : Addr → Nat}
  {heap : Heap V E Closure} {promised : Addr → Bool} {arguments : List Addr}

/-- **The executor comes to rest.** In every run the number of its steps is bounded by the work that
is left and the values that are resolved, a thread that has not ended is never stuck, and from every
state the executor's own steps lead to one in which the queue is empty and all threads have ended. -/
theorem executor_quiesces [Inhabited V] (hu : UniqueProducer nodes)
    (hs : (build order nodes).startNode = some start)
    (hc : Caller (build order nodes) start handles heap promised arguments) {s : St V E}
    (hr : (sys (build order nodes) start heap promised arguments).Reach DropsDelivered s) :
    (∀ ls s', (sys (build order nodes) start heap promised arguments).Path DropsDelivered s ls s' →
      work (build order nodes) start s' + ls.countP Label.isInternal ≤
        work (build order nodes) start s + 5 * ls.countP Label.isResolve) ∧
    (∀ t st, s.threads[t]? = some st → st ≠ [] →
      ∃ c s', step (build order nodes) start s (.run t c) = some s') ∧
    ∃ ls s', (∀ l ∈ ls, l.isInternal = true) ∧
      (sys (build order nodes) start heap promised arguments).Path DropsDelivered s ls s' ∧
      s'.Idle := by
  have hw := wired_build hu hs
  have hsafe : ∀ {s}, (sys (build order nodes) start heap promised arguments).Reach DropsDelivered s →
      Safe (build order nodes) start handles s := fun h => Safe.reach hw hc h
  have hfwd : ∀ {s}, (sys (build order nodes) start heap promised arguments).Reach DropsDelivered s →
      ForwardsReady s := fun h => ForwardsReady.reach hw hc h
  have hdr : ∀ {s}, (sys (build order nodes) start heap promised arguments).Reach DropsDelivered s →
      AllFrames Frame.Drains s := fun h => AllFrames.reach stable_drains drains_mainFrame h
  refine ⟨fun ls s' hp => ?_, fun t st ht hne => exists_step (hsafe hr) (hdr hr) ht hne, ?_⟩
  · have hsum := hp.amortized (work (build order nodes) start) Label.spent Label.gained
      (fun s l s' h hok hn => .step h hok hn)
      (fun s l s' h _ hn => work_spent (hsafe h) (hfwd h) hn) hr
    rw [sum_spent, sum_gained] at hsum
    exact hsum
  · refine exists_path (work (build order nodes) start) (fun l => l.isInternal = true)
      (fun s l s' h hok hn => .step h hok hn) (fun s h hidle => ?_) hr
    obtain ⟨l, s', hl, hn⟩ := exists_internal (hsafe h) (hdr h) hidle
    refine ⟨l, s', hl, fun r hd => ?_, hn, work_lt (hsafe h) (hfwd h) hn hl⟩
    subst hd
    cases hl

/-- `f` returns a value that is resolved when the calling thread has ended. -/
def laterExecute : List (Label Nat Unit) := List.replicate 17 (runReturning 0 laterValue) ++
  .resolve 1 .ready 0 :: List.replicate 2 (runReturning 1 laterValue)

theorem laterExecute_kept : ∀ l ∈ laterExecute, ∀ r, l ≠ .dropResult r := by
  intro l hl r
  rcases List.mem_append.mp hl with h | h
  · rw [List.eq_of_mem_replicate h]
    exact fun h => by cases h
  · rcases List.mem_cons.mp h with rfl | h
    · exact fun h => by cases h
    · rw [List.eq_of_mem_replicate h]
      exact fun h => by cases h

/-- This run makes 19 steps of its own, and the bound is 63. -/
theorem executor_quiesces_chain : ∃ s₀ s, after chainGraph 0 [readyValue] [] = some s₀ ∧
    after chainGraph 0 [readyValue] laterExecute = some s ∧ work chainGraph 0 s₀ = 58 ∧
    work chainGraph 0 s + 19 ≤ 58 + 5 ∧
    ∃ c s', step chainGraph 0 s₀ (.run 0 c) = some s' := by
  have hcall := caller_argumentHeap chainGraph 0 [readyValue] rfl
  obtain ⟨s, hs⟩ : ∃ s, after chainGraph 0 [readyValue] laterExecute = some s := ⟨_, rfl⟩
  obtain ⟨hbound, hstep, -⟩ := executor_quiesces wellFormed_chainNodes.unique rfl hcall
    (reach_after_kept [] (by simp) rfl)
  have hpath : work chainGraph 0 s + 19 ≤ work chainGraph 0 (init chainGraph 0
      (argumentHeap [readyValue]) (promises 0 [readyValue]) [0]) + 5 :=
    hbound laterExecute s (path_runLabels laterExecute
      (fun l hl s r h => absurd h (laterExecute_kept l hl r)) hs)
  have hwork : work chainGraph 0 (init chainGraph 0 (argumentHeap [readyValue])
    (promises 0 [readyValue]) [0]) = 58 := by decide
  refine ⟨_, s, rfl, hs, hwork, ?_, hstep 0 [mainFrame chainGraph 0] rfl (by simp)⟩
  rw [hwork] at hpath
  exact hpath

end Theorems

end GraphExecutor

end AsyncLib
