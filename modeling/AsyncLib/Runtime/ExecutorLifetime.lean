import AsyncLib.Runtime.Addresses
import AsyncLib.Runtime.Lifetime
import AsyncLib.Runtime.TaskGraphLifetime

/-!
# How long an executor lives

The reference count of `GraphExecutor` and of `TaskGraphExecutor`: one reference of the owner, one
for each task that is queued or runs, and one for each closure that is registered or runs.

* `Owing`: every frame drops one reference at its end, or does not use the executor.
* `Alive`: the reference count is the number of drops that are going to be executed, those of the
  registered closures included.
* `Accounted`: the `Ledger` of a state. The steps that drop the last reference (`Drops`) are the calls
  of `Destroy`; `lifetime` counts them.
* `executor_lifetime`: both executors are accounted for in every state of every run, and nothing of
  them starts after `Destroy`.
-/

namespace AsyncLib

open Sys Agenda Holders

/-! ## `GraphExecutor` -/

namespace GraphExecutor

open AsyncValue

variable {F V E : Type} {g : AsyncGraph F} {start : Nat}

/-- The code that does not use the executor: the closures of `ForwardTo`, and drops of values. -/
def Foreign : Op → Prop
  | .forwardTo _ _ => True
  | .dropRef _ => True
  | _ => False

/-- Every frame gives the reference to the executor back once, at its end, or has none. -/
def Owing (s : St V E) : Prop := ∀ f ∈ s.threads.flatten, Owes .dropExecutor Foreign f.code

theorem owes_taskFrame (k : Nat) : Owes .dropExecutor Foreign (taskFrame k).code :=
  .inl ⟨[.processReadyKernels], rfl, by simp⟩

theorem owes_waiterCode (w : Waiter Closure) : Owes .dropExecutor Foreign (waiterCode start w) := by
  match w with
  | .forward i v => exact .inr (by simp [waiterCode, Foreign])
  | .client (.setAndDecrease k j v) =>
    exact .inl ⟨[.setAsyncValuePtr k j v, .processReadyKernels], rfl, by simp⟩
  | .client (.decrease j) => exact .inl ⟨[.decreaseReadyCounts start j, .processReadyKernels], rfl, by simp⟩

theorem owes_waiterFrames (ws : List (Waiter Closure)) :
    ∀ f ∈ waiterFrames start ws, Owes .dropExecutor Foreign f.code := by
  intro f hf
  obtain ⟨w, -, rfl⟩ := List.mem_map.mp hf
  exact owes_waiterCode w

theorem Cont.resume_owes (c : Cont) (sh : Shared V E) (v : Addr) :
    .dropExecutor ∉ (c.resume sh v).2 := by
  cases c <;> simp [Cont.resume]

theorem getOrCreate_owes (sh : Shared V E) (r : Nat) (c : Cont) :
    .dropExecutor ∉ (getOrCreateAsyncValuePtr g sh r c).2 := by
  unfold getOrCreateAsyncValuePtr
  split
  · exact c.resume_owes sh _
  · simp

theorem afterCall_owes {k : Nat} {args outs : List Addr} : .dropExecutor ∉ afterCall k args outs := by
  intro h
  rcases mem_afterCall h with ⟨a, -, ha⟩ | ⟨j, v, -, hv⟩
  · cases ha
  · cases hv

/-- What an operation leaves to do: no drop of the executor in its own frame. -/
structure Leaves (op : Op) (e : Effect) : Prop where
  code : .dropExecutor ∉ e.code
  free : op = .dropExecutor ∨ Foreign op → ∀ x ∈ e.code, Foreign x
  frames : ∀ f ∈ e.frames, Owes .dropExecutor Foreign f.code

theorem Leaves.of_code {op : Op} {code : List Op} {ready : List Nat} {frames : List Frame}
    {queued : List Nat} (h : .dropExecutor ∉ code) (hop : ¬ (op = .dropExecutor ∨ Foreign op))
    (hf : ∀ f ∈ frames, Owes .dropExecutor Foreign f.code) :
    Leaves op ⟨code, ready, frames, queued⟩ :=
  ⟨h, fun hc => absurd hc hop, hf⟩

theorem exec_leaves {sh sh' : Shared V E} {c : Choice V E} {op : Op} {e : Effect}
    (he : exec g start sh c op = some (sh', e)) : Leaves op e := by
  cases op with
  | pseudoKernel j =>
    simp only [exec] at he
    split at he
    · cases he
      exact .of_code (by simp) (by simp [Foreign]) (by simp)
    · split at he
      · cases he
        exact .of_code (by simp) (by simp [Foreign]) (by simp)
      · split at he
        · cases he
        · split at he
          · cases he
            exact .of_code (by simp) (by simp [Foreign]) (by simp)
          · split at he <;> cases he <;> exact .of_code (by simp) (by simp [Foreign]) (by simp)
  | pseudoAndThen j a =>
    cases he
    exact .of_code (by simp) (by simp [Foreign]) (owes_waiterFrames _)
  | decreaseReadyCounts k j =>
    cases he
    exact .of_code (by simp) (by simp [Foreign]) (by simp)
  | decreaseReadyCount u =>
    cases he
    exact .of_code (by simp) (by simp [Foreign]) (by simp)
  | processReadyKernels => cases he
  | enqueueWork k =>
    cases he
    cases c.inline
    · exact .of_code (by simp) (by simp [Foreign]) (by simp)
    · exact .of_code (by simp) (by simp [Foreign]) (by simpa using owes_taskFrame k)
  | processReadyKernel k =>
    cases he
    exact .of_code (by simp) (by simp [Foreign]) (by simp)
  | addArgs k todo args err =>
    cases todo with
    | nil =>
      cases he
      exact .of_code (by simp) (by simp [Foreign]) (by simp)
    | cons r todo =>
      cases he
      exact .of_code (getOrCreate_owes sh r _) (by simp [Foreign]) (by simp)
  | installIndirect r ind cont =>
    simp only [exec] at he
    split at he
    · cases he
      exact .of_code (cont.resume_owes _ _) (by simp [Foreign]) (by simp)
    · cases he
      exact .of_code (cont.resume_owes _ _) (by simp [Foreign]) (by simp)
  | callKernel k args err =>
    cases err with
    | none =>
      simp only [exec, Option.map_eq_some_iff] at he
      obtain ⟨p, hp, he⟩ := he
      cases he
      unfold callKernel at hp
      split at hp
      · cases hp
      · split at hp
        · cases hp
          exact .of_code afterCall_owes (by simp [Foreign]) (by simp)
        · cases hp
    | some err =>
      cases he
      exact .of_code afterCall_owes (by simp [Foreign]) (by simp)
  | dropRef a =>
    cases he
    exact ⟨by simp, by simp, by simp⟩
  | processUsedBy k j v =>
    simp only [exec] at he
    split at he <;> cases he <;> exact .of_code (by simp) (by simp [Foreign]) (by simp)
  | andThen k j v =>
    cases he
    exact .of_code (by simp) (by simp [Foreign]) (owes_waiterFrames _)
  | setAsyncValuePtr k j v =>
    cases he
    exact .of_code (by simp) (by simp [Foreign]) (by simp)
  | casAsyncValuePtr k j v =>
    simp only [exec] at he
    split at he <;> cases he <;> exact .of_code (by simp) (by simp [Foreign]) (by simp)
  | forwardExisting k j i v =>
    cases he
    exact .of_code (by simp) (by simp [Foreign]) (owes_waiterFrames _)
  | forwardTo i v =>
    cases he
    exact ⟨by simp, by simp [Foreign], owes_waiterFrames _⟩
  | getResult r =>
    cases he
    exact .of_code (getOrCreate_owes sh r _) (by simp [Foreign]) (by simp)
  | dropExecutor =>
    cases he
    exact ⟨by simp, by simp, by simp⟩

theorem Owing.step {s s' : St V E} {l : Label V E} (h : Owing s)
    (hs : step g start s l = some s') : Owing s' := by
  have hspawn : ∀ fs : List Frame, (∀ f ∈ fs, Owes .dropExecutor Foreign f.code) →
      ∀ f ∈ (s.threads ++ [fs]).flatten, Owes .dropExecutor Foreign f.code := by
    intro fs hfs f hf
    rw [List.flatten_append, List.mem_append] at hf
    rcases hf with hf | hf
    · exact h f hf
    · exact hfs f (by simpa using hf)
  cases l with
  | run t c =>
    simp only [GraphExecutor.step] at hs
    split at hs
    · rename_i f stack ht
      have hstack := forall_stack h ht
      have htop := hstack f (by simp)
      have hrest : ∀ f' ∈ stack, Owes .dropExecutor Foreign f'.code := fun f' hf =>
        hstack f' (List.mem_cons_of_mem f hf)
      unfold runFrame at hs
      split at hs
      · split at hs
        · cases hs
          exact forall_set h hrest
        · cases hs
      · rename_i op rest hcode
        rw [hcode] at htop
        split at hs
        · cases hs
          refine forall_set h (List.forall_mem_cons.mpr ⟨?_, hrest⟩)
          have hnone : Owes _ _ ([] ++ rest) := htop.next (by simp) (by simp)
          exact hnone
        · rename_i k ks hready
          cases hs
          refine forall_set h (List.forall_mem_cons.mpr ⟨?_, hrest⟩)
          have hnew : Owes .dropExecutor Foreign ((ks.map .enqueueWork ++
              [.processReadyKernel k, .processReadyKernels]) ++ rest) :=
            htop.next (by simp) (by simp [Foreign])
          simpa using hnew
        · rw [Option.map_eq_some_iff] at hs
          obtain ⟨⟨sh', e⟩, he, hs⟩ := hs
          cases hs
          have hl := exec_leaves he
          refine forall_set h fun f' hf => ?_
          rcases List.mem_append.mp hf with hf | hf
          · exact hl.frames f' hf
          · rcases List.mem_cons.mp hf with rfl | hf
            · exact htop.next hl.code hl.free
            · exact hrest f' hf
    · cases hs
  | pick k =>
    simp only [GraphExecutor.step] at hs
    split at hs
    · cases hs
      exact hspawn _ (by simpa using owes_taskFrame k)
    · cases hs
  | resolve a form ty =>
    simp only [GraphExecutor.step] at hs
    split at hs
    · rw [Option.map_eq_some_iff] at hs
      obtain ⟨⟨sh', ws⟩, -, hs⟩ := hs
      cases hs
      refine hspawn _ fun f hf => ?_
      rcases List.mem_append.mp hf with hf | hf
      · exact owes_waiterFrames ws f hf
      · rw [List.mem_singleton.mp hf]
        exact .inr (by simp [Foreign])
    · cases hs
  | dropResult r =>
    simp only [GraphExecutor.step] at hs
    split at hs
    · split at hs
      · cases hs
        exact h
      · cases hs
    · cases hs

/-! ### The count -/

/-- A closure of the executor. -/
def isClosure : Waiter Closure → Bool
  | .forward _ _ => false
  | .client _ => true

/-- The number of the closures that are registered. -/
def registered (h : Heap V E Closure) : Nat :=
  ∑ a ∈ Finset.range h.next, (h.cell a).waiters.countP isClosure

theorem count_waiterCode (w : Waiter Closure) :
    (waiterCode start w).count .dropExecutor = (isClosure w).toNat := by
  match w with
  | .forward i v => rfl
  | .client (.setAndDecrease k j v) => rfl
  | .client (.decrease j) => rfl

theorem count_waitingOps (h : Heap V E Closure) :
    (waitingOps start h).count .dropExecutor = registered h := by
  rw [waitingOps, Heap.waiting, Multiset.count_sum']
  refine Finset.sum_congr rfl fun a _ => ?_
  induction (h.cell a).waiters with
  | nil => rfl
  | cons w ws ih =>
    rw [List.map_cons, List.sum_cons, Multiset.count_add, ih, Multiset.coe_count, count_waiterCode,
      List.countP_cons]
    cases isClosure w <;> simp +arith

theorem Frame.count_ops (f : Frame) : f.ops.count .dropExecutor = f.code.count .dropExecutor := by
  rw [Frame.ops, List.count_append, List.count_eq_zero.mpr (by simp), zero_add]

theorem count_running (s : St V E) : s.running.count .dropExecutor =
    s.queue.length + (s.threads.flatten.map fun f => f.code.count .dropExecutor).sum := by
  show (pool (fun k => (taskFrame k).ops) (fun st : List Frame => st.flatMap Frame.ops) s.queue
    s.threads).count .dropExecutor = _
  rw [count_pool]
  congr 1
  · have hone : ∀ k, (taskFrame k).ops.count .dropExecutor = 1 := fun _ => rfl
    simp [hone]
  · rw [List.map_flatten, List.sum_flatten, List.map_map]
    refine congrArg List.sum (List.map_congr_left fun stack _ => ?_)
    rw [List.count_flatMap]
    exact congrArg List.sum (List.map_congr_left fun f _ => f.count_ops)

theorem Cont.resume_mRefCount (c : Cont) (sh : Shared V E) (v : Addr) :
    (c.resume sh v).1.mRefCount = sh.mRefCount := by
  cases c <;> rfl

theorem pendingForward_owes {h : Heap V E Closure} {i v : Addr} :
    .dropExecutor ∉ pendingForward h i v := by
  unfold pendingForward
  split <;> simp

/-- A step takes and drops references as it adds and executes drops. -/
theorem Does.drops {sh sh' : Shared V E} {old new net : List Op}
    (hd : Does g start sh old sh' new net) (hle : old.count .dropExecutor ≤ sh.mRefCount) :
    sh'.mRefCount + old.count .dropExecutor = sh.mRefCount + net.count .dropExecutor := by
  have hnone : ∀ {l : List Op}, .dropExecutor ∉ l → l.count .dropExecutor = 0 := fun h =>
    List.count_eq_zero.mpr h
  cases hd with
  | dropExecutor =>
    have : 1 ≤ sh.mRefCount := hle
    show sh.mRefCount - 1 + 1 = sh.mRefCount
    omega
  | @load r c v hc hp =>
    have hop : .dropExecutor ∉ [c.op r] := by cases c <;> simp [Cont.op]
    rw [Cont.resume_mRefCount, hnone (c.resume_owes sh v), hnone hop]
  | @make r c hc hp =>
    have hop : .dropExecutor ∉ [c.op r] := by cases c <;> simp [Cont.op]
    rw [hnone hop, hnone (by simp)]
  | @install r ind c hp =>
    rw [Cont.resume_mRefCount, hnone (c.resume_owes _ _), hnone (by simp)]
  | @discard r ind v c hp =>
    rw [Cont.resume_mRefCount, hnone (c.resume_owes _ _), hnone (by simp)]
  | callError => rw [hnone afterCall_owes, hnone (by simp)]
  | call => rw [hnone afterCall_owes, hnone (by simp)]
  | decreaseAll => rw [hnone (by simp), hnone (by simp)]
  | decrease =>
    split <;> rfl
  | readyCons => rw [hnone (by simp), hnone (by simp)]
  | forwardExisting hi hv =>
    rw [hnone (by simp), hnone fun hm => ?_]
    rcases List.mem_append.mp hm with hm | hm
    · exact pendingForward_owes hm
    · simp at hm
  | forwardTo hi hv =>
    rw [hnone (by simp), hnone fun hm => ?_]
    rcases List.mem_append.mp hm with hm | hm
    · exact pendingForward_owes hm
    · simp at hm
  | resolveIndirect =>
    rw [hnone (by simp), hnone fun hm => ?_]
    rcases List.mem_append.mp hm with hm | hm
    · exact pendingForward_owes hm
    · simp at hm
  | _ => rfl

theorem Does.down {sh sh' : Shared V E} {old new net : List Op}
    (hd : Does g start sh old sh' new net) : sh.mRefCount ≤ sh'.mRefCount + 1 := by
  cases hd with
  | dropExecutor =>
    show sh.mRefCount ≤ sh.mRefCount - 1 + 1
    omega
  | pseudoAndThen | enqueue | andThen =>
    show sh.mRefCount ≤ sh.mRefCount + 1 + 1
    omega
  | load | install | discard =>
    rw [Cont.resume_mRefCount]
    exact Nat.le_succ _
  | _ => exact Nat.le_succ _

/-! ### Runs -/

/-- What a run of the executor starts with: the arguments, the values that are promised and those
that wait are allocated, and no closure of the executor is registered. -/
structure Allocated (g : AsyncGraph F) (start : Nat) (heap : Heap V E Closure)
    (promised : Addr → Bool) (arguments : List Addr) : Prop where
  arguments : ∀ a ∈ arguments.take (g.numResults start), a < heap.next
  promised : ∀ a, promised a = true → a < heap.next
  waiters : ∀ a w, w ∈ (heap.cell a).waiters →
    ∃ i v, w = .forward i v ∧ i < heap.next ∧ v < heap.next

/-- The invariant of all runs. -/
structure Alive (start : Nat) (s : St V E) : Prop where
  owing : Owing s
  inHeap : InHeap s.sh (s.agenda start)
  counted : (s.agenda start).count .dropExecutor = s.sh.mRefCount

theorem Alive.step {s s' : St V E} {l : Label V E} (h : Alive start s)
    (hs : GraphExecutor.step g start s l = some s') : Alive start s' ∧ s.sh.mRefCount ≤ s'.sh.mRefCount + 1 := by
  by_cases hok : DropsDelivered s l
  · have hb : Bounded s.sh s.running :=
      ⟨fun op hop a ha => h.inHeap.ops op (Multiset.mem_add.mpr (.inl hop)) a (touches_subset op a ha),
        h.inHeap.promised⟩
    obtain ⟨old, new, net, R, hd, h1, h2, -⟩ := step_does hs hok hb
    have h3 : s.agenda start = ↑old + (R + waitingOps start s.sh.heap) := by
      rw [St.agenda, h1, add_assoc]
    have h4 : s'.agenda start = ↑net + (R + waitingOps start s.sh.heap) := by
      have hw := hd.waiting
      calc s'.agenda start = (waitingOps start s'.sh.heap + ↑new) + R := by
            rw [St.agenda, h2]
            abel
        _ = ↑net + (R + waitingOps start s.sh.heap) := by
            rw [hw]
            abel
    have hc := h.counted
    rw [h3, Multiset.count_add, Multiset.coe_count] at hc
    have hdrops := hd.drops (by omega)
    refine ⟨⟨h.owing.step hs, h4 ▸ hd.inHeap (h3 ▸ h.inHeap), ?_⟩, hd.down⟩
    rw [h4, Multiset.count_add, Multiset.coe_count]
    omega
  · -- an early drop of a result leaves the agenda as it is
    cases l with
    | dropResult r =>
      have howes := h.owing.step hs
      simp only [GraphExecutor.step] at hs
      split at hs
      · split at hs
        · cases hs
          have hagenda : ∀ (h' : Heap V E Closure) (res : Nat → Slot),
              waitingOps start h' = waitingOps start s.sh.heap →
              ({ s with sh := { s.sh with heap := h', results := res } } : St V E).agenda start =
                s.agenda start := fun h' res he => congrArg (s.running + ·) he
          refine ⟨⟨howes, ?_, ?_⟩, Nat.le_succ _⟩
          · rw [hagenda _ _ (waitingOps_dropRef _ _)]
            exact ⟨by simpa using h.inHeap.ops, by simpa using h.inHeap.regs,
              by simpa using h.inHeap.promised⟩
          · rw [hagenda _ _ (waitingOps_dropRef _ _)]
            exact h.counted
        · cases hs
      · cases hs
    | run t c => exact absurd (fun r hr => by cases hr) hok
    | pick k => exact absurd (fun r hr => by cases hr) hok
    | resolve a form ty => exact absurd (fun r hr => by cases hr) hok

section Start

variable {heap : Heap V E Closure} {promised : Addr → Bool} {arguments : List Addr}

/-- `InitializeArgumentRegisters` stores arguments and takes references to them. -/
theorem initialize_foldl (g : AsyncGraph F) (start : Nat) (args : List (Addr × Nat)) (p : Heap V E Closure × (Nat → Reg)) {n : Nat}
    (hn : p.1.next = n) (hargs : ∀ a ∈ args, a.1 < n) (hregs : ∀ r a, (p.2 r).ptr = some a → a < n) :
    let q := args.foldl (fun p a => (p.1.addRef a.1 (g.userCount (g.resultReg start a.2)),
      Function.update p.2 (g.resultReg start a.2) (.direct a.1))) p
    q.1.next = n ∧ waitingOps start q.1 = waitingOps start p.1 ∧
      ∀ r a, (q.2 r).ptr = some a → a < n := by
  induction args generalizing p with
  | nil => exact ⟨hn, rfl, hregs⟩
  | cons x args ih =>
    obtain ⟨h1, h2, h3⟩ := ih (p.1.addRef x.1 (g.userCount (g.resultReg start x.2)),
      Function.update p.2 (g.resultReg start x.2) (.direct x.1)) hn
      (fun a ha => hargs a (List.mem_cons_of_mem x ha)) (fun r a hr => by
        by_cases hq : r = g.resultReg start x.2
        · subst hq
          simp only [Function.update_self] at hr
          cases hr
          exact hargs x (by simp)
        · simp only [Function.update_of_ne hq] at hr
          exact hregs r a hr)
    exact ⟨h1, h2.trans (waitingOps_addRef _ _), h3⟩

theorem owes_mainFrame : Owes .dropExecutor Foreign (mainFrame g start).code := by
  refine .inl ⟨_, rfl, fun hm => ?_⟩
  rcases List.mem_append.mp hm with hm | hm
  · simp at hm
  · rcases List.mem_cons.mp hm with hm | hm
    · cases hm
    · obtain ⟨r, -, hr⟩ := List.mem_map.mp hm
      cases hr

theorem Allocated.alive (h : Allocated g start heap promised arguments) :
    Alive start (init g start heap promised arguments) := by
  have hargs : ∀ a ∈ (arguments.take (g.numResults start)).zipIdx, a.1 < heap.next := fun a ha =>
    h.arguments a.1 (List.fst_mem_of_mem_zipIdx ha)
  obtain ⟨hnext, hwait, hregs⟩ := initialize_foldl g start
    (arguments.take (g.numResults start)).zipIdx (heap, fun _ => .empty) rfl hargs (by simp)
  have hforward : ∀ op ∈ waitingOps start heap, ∃ i v, op = .forwardTo i v ∧ i < heap.next ∧
      v < heap.next := by
    intro op hop
    obtain ⟨a, -, w, hw, hop⟩ := mem_waitingOps.mp hop
    obtain ⟨i, v, rfl, hi, hv⟩ := h.waiters a w hw
    exact ⟨i, v, List.mem_singleton.mp hop, hi, hv⟩
  have hmain : ∀ op ∈ (mainFrame g start).code, op.addrs = [] := by
    intro op hop
    simp only [mainFrame, List.mem_append, List.mem_map, List.mem_cons, List.not_mem_nil,
      or_false] at hop
    rcases hop with (⟨j, -, rfl⟩ | rfl | ⟨r, -, rfl⟩) | rfl <;> rfl
  have hagenda : (init g start heap promised arguments).agenda start =
      ↑((mainFrame g start).code) + waitingOps start heap := by
    rw [St.agenda]
    refine congrArg₂ (· + ·) ?_ hwait
    simp [St.running, init, Frame.ops, mainFrame]
  have hlt : (init g start heap promised arguments).sh.heap.next = heap.next := hnext
  refine ⟨?_, ⟨?_, ?_, ?_⟩, ?_⟩
  · intro f hf
    simp only [init, List.flatten_cons, List.flatten_nil, List.append_nil, List.mem_singleton] at hf
    subst hf
    exact owes_mainFrame
  · rw [hagenda, hlt]
    intro op hop a ha
    rcases Multiset.mem_add.mp hop with hop | hop
    · rw [hmain op hop] at ha
      cases ha
    · obtain ⟨i, v, rfl, hi, hv⟩ := hforward op hop
      simp only [Op.addrs, List.mem_cons, List.not_mem_nil, or_false] at ha
      rcases ha with rfl | rfl
      · exact hi
      · exact hv
  · rw [hlt]
    exact hregs
  · rw [hlt]
    exact h.promised
  · have hwaiting : (waitingOps start heap).count .dropExecutor = 0 :=
      Multiset.count_eq_zero.mpr fun hm => by
        obtain ⟨i, v, he, -⟩ := hforward _ hm
        cases he
    rw [hagenda, Multiset.count_add, hwaiting, Multiset.coe_count,
      owes_mainFrame.count (show ¬ Foreign .dropExecutor from id), if_pos (by simp [mainFrame])]
    rfl

/-- Without references nothing of the executor is executed any more. -/
theorem Alive.step_dead {s s' : St V E} {l : Label V E} (h : Alive start s)
    (h0 : s.sh.mRefCount = 0) (hs : GraphExecutor.step g start s l = some s') :
    s'.sh.mRefCount = 0 := by
  have hc := h.counted
  rw [St.agenda, Multiset.count_add, count_running, h0] at hc
  cases l with
  | run t c =>
    simp only [GraphExecutor.step] at hs
    split at hs
    · rename_i f stack ht
      have hf : f ∈ s.threads.flatten := forall_stack (fun f hf => hf) ht f (by simp)
      have hcount : f.code.count .dropExecutor = 0 := by
        have := List.le_sum_of_mem (List.mem_map_of_mem (f := fun f => f.code.count .dropExecutor) hf)
        omega
      have hcode := (h.owing f hf).unused (List.count_eq_zero.mp hcount)
      unfold runFrame at hs
      split at hs
      · split at hs
        · cases hs
          exact h0
        · cases hs
      · rename_i op rest he
        have hop := hcode op (by rw [he]; simp)
        cases op with
        | forwardTo i v =>
          cases hs
          exact h0
        | dropRef a =>
          cases hs
          exact h0
        | _ => exact hop.elim
    · cases hs
  | pick k =>
    simp only [GraphExecutor.step] at hs
    split at hs
    · cases hs
      exact h0
    · cases hs
  | resolve a form ty =>
    simp only [GraphExecutor.step] at hs
    split at hs
    · rw [Option.map_eq_some_iff] at hs
      obtain ⟨⟨sh', ws⟩, hr, hs⟩ := hs
      cases hs
      unfold resolve at hr
      split at hr
      · cases hr
        exact h0
      · cases hr
        exact h0
      · cases hr
    · cases hs
  | dropResult r =>
    simp only [GraphExecutor.step] at hs
    split at hs
    · split at hs
      · cases hs
        exact h0
      · cases hs
    · cases hs

theorem alive_reach (h : Allocated g start heap promised arguments) {s : St V E}
    (hs : (sys g start heap promised arguments).Reach Any s) : Alive start s := by
  refine hs.invariant (I := Alive start) ?_ ?_
  · rintro s rfl
    exact h.alive
  · intro s l s' ha _ hn
    exact (ha.step hn).1

/-- The reference count of a run, and the calls of `Destroy`. -/
def lifetime (g : AsyncGraph F) (start : Nat) (heap : Heap V E Closure) (promised : Addr → Bool)
    (arguments : List Addr) : Sys (St V E × Nat) (Label V E) :=
  (sys g start heap promised arguments).tally (Drops fun s => s.sh.mRefCount)

/-- What the reference count of a state says. -/
def Accounted (x : St V E × Nat) : Prop :=
  Ledger .dropExecutor Frame.code Foreign x.1.sh.mRefCount x.2 x.1.queue.length
    (registered x.1.sh.heap) x.1.threads

/-- The owner and all work of the executor are gone. -/
def St.Over (s : St V E) : Prop :=
  Holders.Over .dropExecutor Frame.code s.queue.length (registered s.sh.heap) s.threads

instance (s : St V E) : Decidable s.Over := inferInstanceAs (Decidable (Holders.Over ..))

theorem accounted_reach (h : Allocated g start heap promised arguments) {x : St V E × Nat}
    (hx : (lifetime g start heap promised arguments).Reach Any x) : Accounted x := by
  have hs : (sys g start heap promised arguments).Reach Any x.1 := Reach.of_tally Any hx
  have ha := alive_reach h hs
  refine .of_count (show ¬ Foreign .dropExecutor from id) ha.owing ?_ ?_
  · rw [← ha.counted, St.agenda, Multiset.count_add, count_running, count_waitingOps]
  · refine tally_last Any ?_ ?_ ?_ hx
    · rintro s rfl
      exact Nat.one_ne_zero
    · intro s l s' hr _ hn
      exact ((alive_reach h hr).step hn).2
    · intro s l s' hr _ hn h0
      exact (alive_reach h hr).step_dead h0 hn

end Start

end GraphExecutor

/-! ## Both executors -/

/-- In every state of every run the ledger holds, and after `Destroy` nothing of the executor is
queued, running or registered again. -/
def Lives {σ lab : Type} (S : Sys (σ × Nat) lab) (acc : σ × Nat → Prop) (ended : σ → Prop) : Prop :=
  ∀ x, S.Reach Any x → acc x ∧ (x.2 = 1 → ∀ l x', S.next x l x' → x'.2 = 1 ∧ ended x'.1)

/-- `Destroy` is not called twice. -/
theorem lives_of_accounted {σ lab : Type} {S : Sys σ lab} {refs : σ → Nat} {acc : σ × Nat → Prop}
    {ended : σ → Prop} (hacc : ∀ x, (S.tally (Drops refs)).Reach Any x → acc x)
    (honce : ∀ x, acc x → x.2 ≤ 1) (hover : ∀ x, acc x → x.2 = 1 → ended x.1) :
    Lives (S.tally (Drops refs)) acc ended := by
  intro x hx
  refine ⟨hacc x hx, fun h1 l x' hn => ?_⟩
  have hx' := hacc x' (.step hx trivial hn)
  have hle := honce x' hx'
  have hadd := hn.2
  have h1' : x'.2 = 1 := by omega
  exact ⟨h1', hover x' hx' h1'⟩

theorem executor_lifetime {F V E : Type} (g : AsyncGraph F) (start : Nat)
    (heap : AsyncValue.Heap V E GraphExecutor.Closure) (promised : AsyncValue.Addr → Bool)
    (arguments : List AsyncValue.Addr)
    (h : GraphExecutor.Allocated g start heap promised arguments) (graph : TaskGraph) (sync : Bool) :
    Lives (GraphExecutor.lifetime g start heap promised arguments) GraphExecutor.Accounted
      GraphExecutor.St.Over ∧
    Lives (TaskGraphExecutor.lifetime graph sync) TaskGraphExecutor.Accounted
      TaskGraphExecutor.St.Over :=
  ⟨lives_of_accounted (fun _ hx => GraphExecutor.accounted_reach h hx) (fun _ ha => ha.once)
      fun _ ha => ha.destroyed.mp,
    lives_of_accounted (fun _ hx => TaskGraphExecutor.accounted_reach hx) (fun _ ha => ha.once)
      fun _ ha => ha.destroyed.mp⟩

/-- The owner has dropped its reference before the last task runs. -/
def forkFinish : List (GraphExecutor.Label Nat Unit) :=
  GraphExecutor.forkExecute ++ .pick 2 ::
    List.replicate 14 (GraphExecutor.runReturning 1 GraphExecutor.readyValue)

theorem allocated_fork : GraphExecutor.Allocated GraphExecutor.forkGraph 0
    (GraphExecutor.argumentHeap [GraphExecutor.readyValue])
    (GraphExecutor.promises 0 [GraphExecutor.readyValue]) [0] where
  arguments := by decide
  promised a ha := (GraphExecutor.promises_lt ha).2
  waiters a w hw := by
    rw [GraphExecutor.argumentHeap_waiters] at hw
    cases hw

/-- `Destroy` follows the last task. -/
theorem executor_lifetime_fork :
    ∃ s n, (GraphExecutor.lifetime GraphExecutor.forkGraph 0
      (GraphExecutor.argumentHeap [GraphExecutor.readyValue])
      (GraphExecutor.promises 0 [GraphExecutor.readyValue]) [0]).Reach Any (s, n) ∧
      s.sh.mRefCount = 0 ∧ n = 1 := by
  have hrun : (GraphExecutor.after GraphExecutor.forkGraph 0 [GraphExecutor.readyValue]
      forkFinish).any (fun s => decide (s.Over ∧ s.sh.mRefCount = 0)) = true := rfl
  obtain ⟨s, hs, hover⟩ := (Option.any_eq_true _ _).mp hrun
  obtain ⟨hover, h0⟩ := of_decide_eq_true hover
  obtain ⟨n, hn⟩ := Reach.tally
    (p := Drops fun s : GraphExecutor.St Nat Unit => s.sh.mRefCount)
    (GraphExecutor.reach_after forkFinish hs)
  obtain ⟨h, -⟩ := executor_lifetime GraphExecutor.forkGraph 0 _ _ _ allocated_fork {} true
  exact ⟨s, n, hn, h0, (h _ hn).1.destroyed.mpr hover⟩

end AsyncLib
