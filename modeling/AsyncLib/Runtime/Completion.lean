import AsyncLib.Runtime.Readiness

/-!
# Kernels run once, with available arguments, and all of them run

* `Ready.reach`: the invariant of `Runtime/Readiness.lean` holds in every run whose first argument is
  available or not read.
* `kernels_processed_once`: with available arguments every kernel is processed at most once, when its
  arguments are there, and has been processed when nothing is left to do.
* `calls_available`: no kernel is called while one of its arguments is unavailable, if the first
  argument of the graph is available or not read. `not_calls_available_chain`: a run in which it is
  neither.
-/

namespace AsyncLib

namespace GraphExecutor

open AsyncValue Sys Agenda AsyncGraph

variable {F V E : Type} {g : AsyncGraph F} {start : Nat}

/-! ## The start of a run -/

section Start

variable {rank : Nat → Nat}

/-- Counting the elements of one list in another. -/
theorem sum_count_comm (l l' : List Nat) :
    (l.map fun x => l'.count x).sum = (l'.map fun x => l.count x).sum := by
  induction l with
  | nil => simp
  | cons a l ih =>
    have h : (l'.map fun x => (a :: l).count x).sum = (l'.map fun x => l.count x).sum + l'.count a := by
      rw [← sum_map_single l' a, ← List.sum_map_add]
      refine congrArg List.sum (List.map_congr_left fun x _ => ?_)
      simp only [List.count_cons, Pi.single_apply, beq_iff_eq]
    rw [h, List.map_cons, List.sum_cons, ih]
    omega

/-- The results of kernel `k` that kernel `n` reads. -/
theorem feeds_eq (hr : g.Runnable start rank) (n k : Nat) :
    feeds g n k = ((g.argumentsIdx n).map fun r => (g.resultsIndex k).count r).sum := by
  have hidx : g.resultsIndex k = (List.range (g.numResults k)).map (g.resultReg k) := by
    refine List.ext_getElem (by simp [AsyncGraph.numResults]) fun j h1 h2 => ?_
    rw [List.getElem_map, List.getElem_range, AsyncGraph.resultReg, List.getD_eq_getElem _ _ h1]
  rw [sum_count_comm, hidx, List.map_map]
  refine congrArg List.sum (List.map_congr_left fun j hj => ?_)
  have hj' := List.mem_range.mp hj
  rw [Function.comp_apply, (hr.users_nodup k j).count, (hr.args_nodup n).count]
  exact if_congr (hr.mem_users hj' n) rfl rfl

/-- The decrements of a kernel are as many as its arguments. -/
theorem sum_feeds (hr : g.Runnable start rank) (n : Nat) :
    ∑ k ∈ Finset.range g.numKernels, feeds g n k = (g.argumentsIdx n).length := by
  have hone : ∀ r ∈ g.argumentsIdx n, produces g r = 1 := by
    intro r hmem
    obtain ⟨k, j, hj, rfl⟩ := hr.produced hmem
    exact produces_eq hr.toWired hj
  have hswap : ∀ l : List Nat, ∑ k ∈ Finset.range g.numKernels,
      (l.map fun r => (g.resultsIndex k).count r).sum = (l.map fun r => produces g r).sum := by
    intro l
    induction l with
    | nil => simp
    | cons r l ih =>
      simp only [List.map_cons, List.sum_cons, Finset.sum_add_distrib, ih]
      rfl
  simp only [feeds_eq hr]
  rw [hswap, List.map_congr_left hone]
  simp

variable {handles : Addr → Nat} {heap : Heap V E Closure} {promised : Addr → Bool}
  {arguments : List Addr}

/-- The counters at the start. -/
theorem Caller.due (hr : g.Runnable start rank)
    (hc : Caller g start handles heap promised arguments) {n : Nat} (hn : Runs g start n) :
    g.counter n = due g start (init g start heap promised arguments).sh
      ((init g start heap promised arguments).agenda start) n := by
  have hmem := Finset.mem_range.mpr (start_lt hr.toWired)
  have hwait : weight (Op.decrements g start) (waitingOps start heap) n = 0 := by
    refine weight_eq_zero fun op hop => ?_
    obtain ⟨i, v, rfl, -⟩ := hc.mem_waitingOps hop
    rfl
  have hmain : ((mainFrame g start).ops.map fun op => op.decrements g start n).sum =
      feeds g n start := by
    simp only [mainFrame, Frame.ops, List.map_nil, List.nil_append, List.map_append,
      List.sum_append, List.map_cons, List.sum_cons, List.map_map, Op.decrements,
      Function.comp_def, Pi.zero_apply, List.sum_nil, List.map_const', List.sum_replicate_nat,
      Nat.mul_zero, Nat.add_zero]
    rfl
  have hrest : unlogged g [] (feedsOf g start n) + feeds g n start =
      ∑ k ∈ Finset.range g.numKernels, feeds g n k := by
    unfold unlogged
    simp only [List.not_mem_nil, not_false_eq_true, Finset.filter_true]
    rw [← Finset.add_sum_erase _ _ hmem, ← Finset.add_sum_erase _ (feeds g n) hmem, feedsOf,
      if_pos rfl]
    have : ∑ k ∈ (Finset.range g.numKernels).erase start, feedsOf g start n k =
        ∑ k ∈ (Finset.range g.numKernels).erase start, feeds g n k :=
      Finset.sum_congr rfl fun k hk => if_neg (Finset.ne_of_mem_erase hk)
    omega
  rw [hr.counter_eq n hn.2 hn.1, ← sum_feeds hr, ← hrest, GraphExecutor.due, St.agenda, weight_add,
    running_init, weight_coe, hmain, show (init g start heap promised arguments).sh.heap =
      (initializeArgumentRegisters g start heap arguments).1 from rfl,
    (hc.initialized hr.toWired).waitingOps, hwait]
  rfl

/-- The invariant holds initially, if the first argument is available or nobody reads it. -/
theorem Caller.ready (hr : g.Runnable start rank)
    (hc : Caller g start handles heap promised arguments)
    (hfirst : g.getNextUsedBys start 0 ≠ [] →
      ∀ a, arguments[0]? = some a → heap.isAvailable a = true) :
    Ready g start (init g start heap promised arguments).sh
      (init g start heap promised arguments).running := by
  have hw := hr.toWired
  have hl := hc.initialized hw
  have hcell : ∀ b, (init g start heap promised arguments).sh.heap.cell b =
      { heap.cell b with mRefCount := (init g start heap promised arguments).sh.heap.refs b } :=
    hl.cell
  refine ⟨fun n hn => ?_, fun op hop => ?_, fun a w hwt => ?_, fun r _ => ?_, fun j hj hu a ha => ?_⟩
  · exact congrArg Nat.cast (hc.due hr hn)
  · rw [running_init] at hop
    rcases mem_mainFrame hop with ⟨j, -, rfl⟩ | rfl | ⟨r, -, rfl⟩ | rfl <;> trivial
  · rw [hcell] at hwt
    obtain ⟨i, rfl, -⟩ := hc.waiters a w hwt
    trivial
  · by_cases hmem : r ∈ g.resultsIndex start
    · obtain ⟨a, ha⟩ := hl.mem_start.1 hmem
      exact .inr ⟨a, ha, .inl hmem⟩
    · exact .inl (hl.mem_start.2 hmem)
  · obtain ⟨b, hb, hreg⟩ := hl.filled j hj
    have hba : b = a := by
      have : Reg.direct b = .direct a := hreg.symm.trans ha
      cases this
      rfl
    subst hba
    by_cases h0 : j = 0
    · subst h0
      left
      rw [Heap.isAvailable, hcell]
      exact hfirst hu b hb
    · refine .inr ⟨h0, .inl ?_⟩
      rw [running_init]
      simp [mainFrame, Frame.ops, hj]

/-- The invariant holds in every run. -/
theorem Ready.reach (hr : g.Runnable start rank)
    (hc : Caller g start handles heap promised arguments)
    (hfirst : g.getNextUsedBys start 0 ≠ [] →
      ∀ a, arguments[0]? = some a → heap.isAvailable a = true) {s : St V E}
    (hs : (sys g start heap promised arguments).Reach DropsDelivered s) :
    Ready g start s.sh s.running := by
  refine hs.invariant_of (I := fun s => Ready g start s.sh s.running)
    (J := fun s => Safe g start handles s) (fun s h => Safe.reach hr.toWired hc h) (fun s h => ?_)
    fun s l s' hsafe h hok hn => Ready.step hr.toWired hsafe h hn hok
  rw [show s = init g start heap promised arguments from h]
  exact hc.ready hr hfirst

/-- The start registers hold the arguments, and the caller's heap only grows. -/
structure Kept (g : AsyncGraph F) (start : Nat) (heap : Heap V E Closure) (arguments : List Addr)
    (sh : Shared V E) : Prop where
  grows : heap.Grows sh.heap
  regs : ∀ j, j < g.numResults start → ∃ a, arguments[j]? = some a ∧ a < heap.next ∧
    sh.regs (g.resultReg start j) = .direct a

theorem Caller.kept (hw : g.Wired start) (hc : Caller g start handles heap promised arguments) :
    Kept g start heap arguments (init g start heap promised arguments).sh := by
  have hl := hc.initialized hw
  have hcell : ∀ b, (init g start heap promised arguments).sh.heap.cell b =
      { heap.cell b with mRefCount := (init g start heap promised arguments).sh.heap.refs b } :=
    hl.cell
  have hnext : (init g start heap promised arguments).sh.heap.next = heap.next := hl.next
  refine ⟨⟨Nat.le_of_eq hnext.symm, fun a _ => by rw [hcell], fun a _ => by rw [hcell],
    fun a _ _ => by rw [hcell]⟩, fun j hj => ?_⟩
  obtain ⟨a, ha, hreg⟩ := hl.filled j hj
  refine ⟨a, ha, ?_, hreg⟩
  rw [← hnext]
  exact (hc.resolving hw).bound_reg _ a
    (by rw [show (init g start heap promised arguments).sh.regs (g.resultReg start j) = .direct a
      from hreg]; rfl)

theorem Kept.reach (hw : g.Wired start) (hc : Caller g start handles heap promised arguments)
    {s : St V E} (hs : (sys g start heap promised arguments).Reach DropsDelivered s) :
    Kept g start heap arguments s.sh := by
  refine hs.invariant_of (I := fun s => Kept g start heap arguments s.sh)
    (J := fun s => Safe g start handles s) (fun s h => Safe.reach hw hc h) (fun s h => ?_)
    fun s l s' hsafe h hok hn => ?_
  · rw [show s = init g start heap promised arguments from h]
    exact hc.kept hw
  · obtain ⟨old, new, net, R, Q, hd, -, -, h3, -⟩ := hsafe.does hn hok
    have hl := hd.later (h3 ▸ hsafe.slots) (h3 ▸ hsafe.resolving)
    refine ⟨h.grows.trans hl.heap, fun j hj => ?_⟩
    obtain ⟨a, ha, hlt, hreg⟩ := h.regs j hj
    exact ⟨a, ha, hlt, hl.direct hreg⟩

end Start

/-! ## Calls -/

/-- `op` is the next operation of some thread. -/
def St.Executes (s : St V E) (op : Op) : Prop :=
  ∃ (t : Nat) (ready : List Nat) (rest : List Op) (stack : List Frame),
    s.threads[t]? = some (⟨ready, op :: rest⟩ :: stack)

theorem St.Executes.mem_running {s : St V E} {op : Op} (h : s.Executes op) : op ∈ s.running := by
  obtain ⟨t, ready, rest, stack, ht⟩ := h
  refine Multiset.mem_add.mpr (.inr (Multiset.mem_coe.mpr ?_))
  refine List.mem_flatMap.mpr ⟨_, List.mem_of_getElem? ht, ?_⟩
  simp [Frame.ops]

/-- The function of a kernel is called with the values of its input registers, all available. -/
def CallsAvailable (g : AsyncGraph F) (s : St V E) : Prop :=
  ∀ k args, s.Executes (.callKernel k args none) → List.Forall₂
    (fun r a => (s.sh.regs r).ptr = some a ∧ s.sh.heap.isAvailable a = true) (g.argumentsIdx k) args

theorem Ready.callsAvailable {s : St V E} (h : Ready g start s.sh s.running) :
    CallsAvailable g s := by
  intro k args hex
  have hread : Reading g s.sh k [] args none := h.ops _ hex.mem_running
  obtain ⟨done, hdone, hl⟩ := hread.loaded
  rw [List.append_nil] at hdone
  subst hdone
  refine List.forall₂_iff_get.mpr ⟨hl.length_eq, fun i h1 h2 => ?_⟩
  have hreg := (List.forall₂_iff_get.mp hl).2 i h1 h2
  exact ⟨by rw [hreg]; rfl, hread.ready.unique (List.get_mem _ _) hreg⟩

section Theorems

variable {nodes : List (AsyncNode F)} {order : HashOrder} {handles : Addr → Nat}
  {heap : Heap V E Closure} {promised : Addr → Bool} {arguments : List Addr}

/-- A start node and a kernel that reads its output. -/
def chainNodes : List (AsyncNode Unit) := [⟨[], ["a"], (), "start"⟩, ⟨["a"], ["b"], (), "f"⟩]

/-- The graph of `chainNodes`. -/
def chainGraph : AsyncGraph Unit := build .insertion chainNodes

theorem wellFormed_chainNodes : WellFormed chainNodes :=
  .of_sorted ⟨by decide, by decide⟩ rfl (by decide) (by decide) (by decide) (by decide)

/-- The calling thread makes `n` steps; `f` returns an available value. -/
def chainExecute (n : Nat) : List (Label Nat Unit) := List.replicate n (runReturning 0 readyValue)

theorem chainExecute_kept (n : Nat) : ∀ l ∈ chainExecute n, ∀ r, l ≠ .dropResult r := by
  intro l hl r
  rw [List.eq_of_mem_replicate hl]
  exact fun h => by cases h

/-- **No kernel is called with an unavailable argument**, if the first argument of the graph is
available or not read. -/
theorem calls_available (hwf : WellFormed nodes) (hs : (build order nodes).startNode = some start)
    (hc : Caller (build order nodes) start handles heap promised arguments)
    (hfirst : (∃ a, arguments[0]? = some a ∧ heap.isAvailable a = true) ∨
      (build order nodes).getNextUsedBys start 0 = []) {s : St V E}
    (hr : (sys (build order nodes) start heap promised arguments).Reach DropsDelivered s) :
    CallsAvailable (build order nodes) s := by
  have havail : (build order nodes).getNextUsedBys start 0 ≠ [] →
      ∀ a, arguments[0]? = some a → heap.isAvailable a = true := by
    intro hne a ha
    obtain ⟨b, hb, hv⟩ := hfirst.resolve_right hne
    rw [ha] at hb
    cases hb
    exact hv
  exact (Ready.reach (hwf.runnable hs) hc havail hr).callsAvailable

/-- `f` is called with the argument of the graph. -/
theorem calls_available_chain : ∃ s, after chainGraph 0 [readyValue] (chainExecute 7) = some s ∧
    s.Executes (.callKernel 1 [0] none) ∧ s.sh.heap.isAvailable 0 = true := by
  refine ⟨_, rfl, ⟨0, _, _, _, rfl⟩, ?_⟩
  have h := calls_available wellFormed_chainNodes rfl
    (caller_argumentHeap chainGraph 0 [readyValue] rfl) (.inl ⟨0, rfl, by decide⟩)
    (reach_after_kept (chainExecute 7) (chainExecute_kept 7) rfl) 1 [0] ⟨0, _, _, _, rfl⟩
  exact ((List.forall₂_cons.mp h).1).2

/-- The first argument is taken to be available: `f` is called while it is not. -/
theorem not_calls_available_chain : WellFormed chainNodes ∧ chainGraph.startNode = some 0 ∧
    Caller chainGraph 0 0 (argumentHeap [laterValue]) (promises 0 [laterValue]) [0] ∧
    ¬ ∀ s, (callSys chainGraph 0 [laterValue]).Reach DropsDelivered s →
      CallsAvailable chainGraph s := by
  refine ⟨wellFormed_chainNodes, rfl, caller_argumentHeap chainGraph 0 [laterValue] rfl, fun h => ?_⟩
  have := h _ (reach_after_kept (chainExecute 7) (chainExecute_kept 7) rfl) 1 [0]
    ⟨0, _, _, _, rfl⟩
  exact absurd ((List.forall₂_cons.mp this).1).2 (by decide)

/-! ## Completion -/

/-- The operations of `ProcessArgumentsAsPseudoKernel`, of `ProcessReadyKernel`, and of the closures
that wait for the results of kernels. -/
def Op.isKernelWork : Op → Bool
  | .processReadyKernels => false
  | .installIndirect _ _ (.takeResult _) => false
  | .dropRef _ => false
  | .forwardTo _ _ => false
  | .getResult _ => false
  | .dropExecutor => false
  | _ => true

/-- No kernel is running, queued or in a list of ready kernels, and every value that a kernel has
returned is resolved. -/
structure St.Settled (s : St V E) : Prop where
  idle : ∀ op ∈ s.running, op.isKernelWork = false
  resolved : ∀ a ∈ s.sh.returned, s.sh.heap.isAvailable a = true

/-- Every thread has ended, the queue is empty, and every value that a kernel has returned is
resolved. -/
structure St.Done (s : St V E) : Prop where
  queue : s.queue = []
  threads : ∀ st ∈ s.threads, st = []
  resolved : ∀ a ∈ s.sh.returned, s.sh.heap.isAvailable a = true

instance (s : St V E) : Decidable s.Done :=
  decidable_of_iff (s.queue = [] ∧ (∀ st ∈ s.threads, st = []) ∧
    ∀ a ∈ s.sh.returned, s.sh.heap.isAvailable a = true)
    ⟨fun h => ⟨h.1, h.2.1, h.2.2⟩, fun h => ⟨h.queue, h.threads, h.resolved⟩⟩

theorem St.Done.running {s : St V E} (h : s.Done) : s.running = 0 := by
  have ht : s.threads.flatMap (fun st => st.flatMap Frame.ops) = [] :=
    List.flatMap_eq_nil_iff.mpr fun st hst => by rw [h.threads st hst]; rfl
  rw [St.running, h.queue, ht]
  rfl

theorem St.Done.settled {s : St V E} (h : s.Done) : s.Settled where
  idle op hop := by
    rw [h.running] at hop
    cases hop
  resolved := h.resolved

/-- A concrete run that comes to its end. -/
theorem exists_done {fs : List (Fresh V E)} {ls : List (Label V E)}
    (h : (after g start fs ls).any (fun s => decide s.Done) = true) :
    ∃ s, after g start fs ls = some s ∧ s.Done := by
  cases ha : after g start fs ls with
  | none => rw [ha] at h; cases h
  | some s =>
    rw [ha] at h
    exact ⟨s, rfl, of_decide_eq_true h⟩

theorem not_kernelWork {op : Op} (h : op.isKernelWork = false) (n : Nat) :
    op.decrements g start n = 0 ∧ op.occurrence n = 0 := by
  cases op with
  | installIndirect r ind c =>
    cases c with
    | addArg => cases h
    | takeResult => exact ⟨rfl, rfl⟩
  | processReadyKernels | dropRef | forwardTo | getResult | dropExecutor => exact ⟨rfl, rfl⟩
  | _ => cases h

/-- When nothing is left to do, only forwarding waits. -/
theorem St.Settled.waiting {s : St V E} (hset : s.Settled) (hsafe : Safe g start handles s)
    (hready : Ready g start s.sh s.running)
    (hargs : ∀ j, j < g.numResults start → ∃ a, s.sh.regs (g.resultReg start j) = .direct a ∧
      s.sh.heap.isAvailable a = true) {op : Op} (hop : op ∈ waitingOps start s.sh.heap) :
    ∃ i v, op = .forwardTo i v := by
  obtain ⟨a, ha, w, hw, hcode⟩ := mem_waitingOps.mp hop
  have hquiet : s.sh.heap.isAvailable a = true → False := by
    intro hv
    rw [hsafe.counted.counts.wf.quiet a hv] at hw
    cases hw
  match w with
  | .forward i v => exact ⟨i, v, List.mem_singleton.mp hcode⟩
  | .client (.setAndDecrease k j v) =>
    obtain ⟨h1, h2⟩ : v = a ∧ v ∈ s.sh.returned := hready.waiters a _ hw
    exact (hquiet (h1 ▸ hset.resolved v h2)).elim
  | .client (.decrease j) =>
    have hreg : s.sh.regs (g.resultReg start j) = .direct a := hready.waiters a _ hw
    have hj : j < g.numResults start := hsafe.flow.valid (.decreaseReadyCounts start j)
      (Multiset.mem_add.mpr (.inr (mem_waitingOps.mpr ⟨a, ha, _, hw, by simp [waiterCode]⟩)))
    obtain ⟨b, hb, hv⟩ := hargs j hj
    rw [hreg] at hb
    cases hb
    exact (hquiet hv).elim

/-- When nothing is left to do, every kernel has been processed: by induction on the order of the
kernels, nothing is left that would decrement its counter. -/
theorem St.Settled.processed {rank : Nat → Nat} (hr : g.Runnable start rank) {s : St V E}
    (hset : s.Settled) (hsafe : Safe g start handles s) (hready : Ready g start s.sh s.running)
    (hargs : ∀ j, j < g.numResults start → ∃ a, s.sh.regs (g.resultReg start j) = .direct a ∧
      s.sh.heap.isAvailable a = true) {n : Nat} (hn : Runs g start n) : s.sh.log.count n = 1 := by
  induction hk : rank n using Nat.strong_induction_on generalizing n with
  | _ m ih =>
    subst hk
    have hwork : ∀ op ∈ s.running + waitingOps start s.sh.heap,
        op.decrements g start n = 0 ∧ op.occurrence n = 0 := by
      intro op hop
      rcases Multiset.mem_add.mp hop with h | h
      · exact not_kernelWork (hset.idle op h) n
      · obtain ⟨i, v, rfl⟩ := hset.waiting hsafe hready hargs h
        exact ⟨rfl, rfl⟩
    have hlog : unlogged g s.sh.log (feedsOf g start n) = 0 := by
      refine Finset.sum_eq_zero fun k hk => ?_
      obtain ⟨hlt, hnot⟩ := Finset.mem_filter.mp hk
      rw [feedsOf]
      split
      · rfl
      · rename_i hne
        refine Nat.eq_zero_of_not_pos fun hpos => hnot ?_
        obtain ⟨x, hx, hx0⟩ := List.exists_mem_ne_zero_of_sum_ne_zero (Nat.ne_of_gt hpos)
        obtain ⟨j, hj, rfl⟩ := List.mem_map.mp hx
        have hj' := List.mem_range.mp hj
        have hmem := (hr.mem_users hj' n).mp (List.count_pos_iff.mp (Nat.pos_of_ne_zero hx0))
        have hcount := ih (rank k) (hr.rank_lt hj' hmem) (n := k)
          ⟨hne, Finset.mem_range.mp hlt⟩ rfl
        exact List.count_pos_iff.mp (by omega)
    have hdue : due g start s.sh (s.running + waitingOps start s.sh.heap) n = 0 := by
      rw [due, hlog, weight_eq_zero fun op hop => (hwork op hop).1]
    have hcounter := hready.counter n hn
    have honce : weight Op.occurrence (s.running + waitingOps start s.sh.heap) n +
        s.sh.log.count n + notReady s.sh n = _ := hsafe.flow.once n
    have hpos : 0 < g.counter n := by
      rw [hr.counter_eq n hn.2 hn.1]
      exact List.length_pos_iff.mpr (hr.args_ne_nil n hn.2 hn.1)
    rw [weight_eq_zero fun op hop => (hwork op hop).2, notReady, hcounter, hdue,
      if_pos hpos] at honce
    simpa using honce

/-- **Every kernel is processed at most once, when the registers of its inputs hold available
values, and every kernel has been processed when nothing is left to do.** -/
theorem kernels_processed_once (hwf : WellFormed nodes)
    (hs : (build order nodes).startNode = some start)
    (hc : Caller (build order nodes) start handles heap promised arguments)
    (hargs : ∀ a ∈ arguments.take ((build order nodes).numResults start),
      heap.isAvailable a = true) {s : St V E}
    (hr : (sys (build order nodes) start heap promised arguments).Reach DropsDelivered s) :
    (∀ k, s.sh.log.count k ≤ 1) ∧
    (∀ k, s.Executes (.processReadyKernel k) → ∀ r ∈ (build order nodes).argumentsIdx k,
      ∃ a, (s.sh.regs r).ptr = some a ∧ 0 < s.sh.heap.refs a ∧ s.sh.heap.isAvailable a = true) ∧
    (s.Settled → ∀ k, k < nodes.length → k ≠ start → s.sh.log.count k = 1) := by
  have hrun := hwf.runnable hs
  have hsafe := Safe.reach hrun.toWired hc hr
  have hget : ∀ j a, j < (build order nodes).numResults start → arguments[j]? = some a →
      heap.isAvailable a = true := fun j a hj ha =>
    hargs a (List.mem_of_getElem? (by rw [List.getElem?_take_of_lt hj]; exact ha))
  have hready := Ready.reach hrun hc (fun _ a ha =>
    hget 0 a (hwf.numResults_pos (start_lt hrun.toWired)) ha) hr
  have hkept := Kept.reach hrun.toWired hc hr
  have hstart : ∀ j, j < (build order nodes).numResults start →
      ∃ a, s.sh.regs ((build order nodes).resultReg start j) = .direct a ∧
        s.sh.heap.isAvailable a = true := by
    intro j hj
    obtain ⟨a, ha, hlt, hreg⟩ := hkept.regs j hj
    exact ⟨a, hreg, hkept.grows.isAvailable hlt (hget j a hj ha)⟩
  refine ⟨fun k => ?_, fun k hex r hmem => ?_, fun hset k hk hne => ?_⟩
  · have := hsafe.flow.once_le k
    omega
  · have hop : Op.processReadyKernel k ∈ s.running + waitingOps start s.sh.heap :=
      Multiset.mem_add.mpr (.inl hex.mem_running)
    obtain ⟨a, ha, hv⟩ := hready.argsReady hrun.toWired hsafe.flow hsafe.slots hop r hmem
    refine ⟨a, by rw [ha]; rfl, ?_, hv⟩
    obtain ⟨⟨-, hlt⟩, hnot, -⟩ := hsafe.flow.fresh hop
    have huse : 0 < uses (build order nodes) s.sh s.running r := by
      have h1 := List.count_pos_iff.mpr hmem
      have h2 := unlogged_cons hlt hnot fun n => ((build order nodes).argumentsIdx n).count r
      unfold uses
      omega
    refine hsafe.counted.pos_entry (hsafe.slots.inRange r (by rw [ha]; simp)) ?_
    simp only [entryRefs, ha, Reg.ptr_direct, Option.elim_some, Pi.add_apply, Pi.single_eq_same]
    omega
  · exact hset.processed hrun hsafe hready hstart ⟨hne, hk⟩

/-- `f` is processed when its argument is there, and has been processed at the end. -/
theorem kernels_processed_once_chain :
    (∃ s, after chainGraph 0 [readyValue] (chainExecute 4) = some s ∧
      s.Executes (.processReadyKernel 1) ∧ s.sh.heap.isAvailable 0 = true) ∧
    ∃ s, after chainGraph 0 [readyValue] (chainExecute 17) = some s ∧ s.Settled ∧
      s.sh.log.count 1 = 1 := by
  have hcall := caller_argumentHeap chainGraph 0 [readyValue] rfl
  have hargs : ∀ a ∈ (List.range 1).take (chainGraph.numResults 0),
      (argumentHeap [readyValue]).isAvailable a = true := by decide
  constructor
  · refine ⟨_, rfl, ⟨0, _, _, _, rfl⟩, ?_⟩
    obtain ⟨-, h, -⟩ := kernels_processed_once wellFormed_chainNodes rfl hcall hargs
      (reach_after_kept (chainExecute 4) (chainExecute_kept 4) rfl)
    obtain ⟨a, ha, -, hv⟩ := h 1 ⟨0, _, _, _, rfl⟩ 0 (by decide)
    cases ha
    exact hv
  · obtain ⟨s, hs, hdone⟩ : ∃ s, after chainGraph 0 [readyValue] (chainExecute 17) = some s ∧ s.Done :=
      exists_done rfl
    obtain ⟨-, -, h⟩ := kernels_processed_once wellFormed_chainNodes rfl hcall hargs
      (reach_after_kept (chainExecute 17) (chainExecute_kept 17) hs)
    exact ⟨s, hs, hdone.settled, h hdone.settled 1 (by decide) (by decide)⟩

end Theorems

end GraphExecutor

end AsyncLib
