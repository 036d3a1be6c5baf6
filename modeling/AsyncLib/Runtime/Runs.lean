import AsyncLib.Runtime.Safety

/-!
# Runs of the executor

* `Caller`: what the caller of `Execute` provides: its references to the arguments, and values that
  are available, promised, or going to be forwarded.
* `Safe`: the invariants of the modules before, of a state. `Safe.init`, `Safe.step`, `Safe.reach`:
  they hold in every state of every run in which the caller drops an entry of `results` only after
  its delivery.
-/

namespace AsyncLib

namespace GraphExecutor

open AsyncValue Sys Agenda

variable {F V E : Type} {g : AsyncGraph F} {start : Nat}

/-! ## Closures that wait -/

section Waiting

theorem weight_sum {ι : Type} (f : Op → ι → Nat) (x : ι) (s : Finset Nat) (M : Nat → Multiset Op) :
    weight f (∑ a ∈ s, M a) x = ∑ a ∈ s, weight f (M a) x := by
  induction s using Finset.induction with
  | empty => rfl
  | insert a s ha ih => rw [Finset.sum_insert ha, Finset.sum_insert ha, weight_add, ih]

/-- The weight of the closures that wait. -/
theorem weight_waitingOps {ι : Type} (f : Op → ι → Nat) (x : ι) (h : Heap V E Closure) :
    weight f (waitingOps start h) x = ∑ a ∈ Finset.range h.next,
      ((h.cell a).waiters.map fun w => ((waiterCode start w).map fun op => f op x).sum).sum := by
  unfold waitingOps Heap.waiting
  rw [weight_sum]
  refine Finset.sum_congr rfl fun a _ => ?_
  induction (h.cell a).waiters with
  | nil => rfl
  | cons w ws ih => rw [List.map_cons, List.sum_cons, weight_add, weight_coe, ih, List.map_cons,
      List.sum_cons]

theorem mem_waitingOps {h : Heap V E Closure} {op : Op} : op ∈ waitingOps start h ↔
    ∃ a, a < h.next ∧ ∃ w ∈ (h.cell a).waiters, op ∈ waiterCode start w := by
  unfold waitingOps Heap.waiting
  rw [Multiset.mem_sum]
  simp only [Finset.mem_range, sum_waiterCode, Multiset.mem_coe, waiterOps, List.mem_flatMap]

end Waiting

/-! ## The state of a run -/

/-- All operations that are going to be executed. -/
def St.agenda (start : Nat) (s : St V E) : Multiset Op := s.running + waitingOps start s.sh.heap

/-- The invariant of all runs. -/
structure Safe (g : AsyncGraph F) (start : Nat) (handles : Addr → Nat) (s : St V E) : Prop where
  flow : Flow g start s.sh (s.agenda start)
  slots : Slots g start s.sh (s.agenda start)
  resolving : Resolving g s.sh (s.agenda start)
  counted : Counted g start handles s.sh s.running

section Step

variable {handles : Addr → Nat} {s s' : St V E} {l : Label V E}

theorem Safe.bounded (h : Safe g start handles s) : Bounded s.sh s.running where
  ops op hop := h.resolving.bound op (Multiset.mem_add.mpr (.inl hop))
  promised _ ha := h.counted.lt_next (h.counted.pos_promised ha)

/-- A step in the agendas: `old` is replaced by `new` among the running operations, and by `net`
among all. -/
theorem Safe.does (h : Safe g start handles s) (hs : step g start s l = some s')
    (hok : DropsDelivered s l) : ∃ old new net R Q, Does g start s.sh old s'.sh new net ∧
      s.running = ↑old + R ∧ s'.running = ↑new + R ∧ s.agenda start = ↑old + Q ∧
      s'.agenda start = ↑net + Q ∧ Called g s l s' old new := by
  obtain ⟨old, new, net, R, hd, h1, h2, h5⟩ := step_does hs hok h.bounded
  refine ⟨old, new, net, R, R + waitingOps start s.sh.heap, hd, h1, h2, ?_, ?_, h5⟩
  · rw [St.agenda, h1, add_assoc]
  · have hw := hd.waiting
    calc s'.agenda start = (waitingOps start s'.sh.heap + ↑new) + R := by
          rw [St.agenda, h2]
          abel
      _ = ↑net + (R + waitingOps start s.sh.heap) := by
          rw [hw]
          abel

theorem Safe.of_does (hw : g.Wired start) (h : Safe g start handles s) {old new net : List Op}
    {R Q : Multiset Op} (hd : Does g start s.sh old s'.sh new net) (h1 : s.running = ↑old + R)
    (h2 : s'.running = ↑new + R) (h3 : s.agenda start = ↑old + Q)
    (h4 : s'.agenda start = ↑net + Q) : Safe g start handles s' := by
  have hf := h3 ▸ h.flow
  have hsl := h3 ▸ h.slots
  have hr := h3 ▸ h.resolving
  have hc := h1 ▸ h.counted
  refine ⟨?_, ?_, ?_, ?_⟩
  · rw [h4]
    exact hf.preserved hw hd
  · rw [h4]
    exact hsl.preserved hw hd hf
  · rw [h4]
    exact hr.preserved hw hd hf hsl hc
  · rw [h2]
    exact hc.preserved hw hd hf hsl hr

theorem Safe.step (hw : g.Wired start) (h : Safe g start handles s)
    (hs : GraphExecutor.step g start s l = some s') (hok : DropsDelivered s l) :
    Safe g start handles s' := by
  obtain ⟨old, new, net, R, Q, hd, h1, h2, h3, h4, -⟩ := h.does hs hok
  exact h.of_does hw hd h1 h2 h3 h4

end Step

/-! ## The start of a run -/

/-- The indirect value that a closure is going to forward. -/
def forwarding : Waiter Closure → Addr → Nat
  | .forward i _ => Pi.single i 1
  | .client _ => 0

/-- What the caller of `Execute` provides: an argument for each result of the start node, with a
reference of its own, and a heap in which nothing but forwarding waits and every unavailable value
has at most one party that will resolve it. `handles` are the other references to the values. -/
structure Caller (g : AsyncGraph F) (start : Nat) (handles : Addr → Nat) (heap : Heap V E Closure)
    (promised : Addr → Bool) (arguments : List Addr) : Prop where
  enough : g.numResults start ≤ arguments.length
  counts : heap.Ok Closure.refs (handles + (fun a => if promised a then 1 else 0) +
    fun a => (arguments.take (g.numResults start)).count a)
  waiters : ∀ a w, w ∈ (heap.cell a).waiters →
    ∃ i, w = .forward i a ∧ (heap.cell i).mKind = .kIndirect
  once : ∀ a, Heap.waiting forwarding heap a + (if promised a then 1 else 0) + resolved heap a ≤ 1

section Start

variable {handles : Addr → Nat} {heap : Heap V E Closure} {promised : Addr → Bool}
  {arguments : List Addr}

/-- The shared state before the loop of `Execute`, for a heap and registers. -/
def started (g : AsyncGraph F) (promised : Addr → Bool) (p : Heap V E Closure × (Nat → Reg)) :
    Shared V E :=
  ⟨p.1, p.2, fun n => g.counter n, fun _ => .empty, 1, promised, [], []⟩

/-- After `n` rounds of `InitializeArgumentRegisters`. -/
structure Loaded (g : AsyncGraph F) (start : Nat) (handles : Addr → Nat) (heap : Heap V E Closure)
    (promised : Addr → Bool) (arguments : List Addr) (n : Nat)
    (p : Heap V E Closure × (Nat → Reg)) : Prop where
  filled : ∀ j, j < n → ∃ a, arguments[j]? = some a ∧ p.2 (g.resultReg start j) = .direct a
  empty : ∀ r, (∀ j, j < n → r ≠ g.resultReg start j) → p.2 r = .empty
  next : p.1.next = heap.next
  cell : ∀ b, p.1.cell b = { heap.cell b with mRefCount := p.1.refs b }
  counts : p.1.Ok Closure.refs (handles + promisedRefs (started g promised p) +
    entries g start (started g promised p) g.reads +
    fun a => ((arguments.take (g.numResults start)).drop n).count a)

theorem Caller.loaded (hc : Caller g start handles heap promised arguments) :
    Loaded g start handles heap promised arguments 0 (heap, fun _ => .empty) where
  filled j hj := absurd hj (Nat.not_lt_zero j)
  empty r _ := rfl
  next := rfl
  cell b := rfl
  counts := by
    refine hc.counts.congr ?_
    have h0 : entries g start (started g promised (heap, fun _ => Reg.empty)) g.reads = 0 := by
      funext x
      exact Finset.sum_eq_zero fun r _ => rfl
    rw [h0, add_zero, List.drop_zero]
    rfl

/-- One round of `InitializeArgumentRegisters`. -/
theorem Loaded.step (hw : g.Wired start) {n : Nat} {p : Heap V E Closure × (Nat → Reg)} {a : Addr}
    (h : Loaded g start handles heap promised arguments n p) (hn : n < g.numResults start)
    (ha : arguments[n]? = some a) :
    Loaded g start handles heap promised arguments (n + 1)
      (p.1.addRef a (g.userCount (g.resultReg start n)),
        Function.update p.2 (g.resultReg start n) (.direct a)) where
  filled := by
    intro j hj
    by_cases hjn : j = n
    · subst hjn
      exact ⟨a, ha, Function.update_self ..⟩
    · obtain ⟨b, hb, hp⟩ := h.filled j (by omega)
      have hne : g.resultReg start j ≠ g.resultReg start n := fun he =>
        hjn (hw.reg_inj (by omega) hn he).2
      exact ⟨b, hb, (Function.update_of_ne hne _ _).trans hp⟩
  empty := by
    intro r hr
    refine (Function.update_of_ne (hr n (Nat.lt_succ_self n)) _ _).trans ?_
    exact h.empty r fun j hj => hr j (Nat.lt_succ_of_lt hj)
  next := h.next
  cell := by
    intro b
    rw [Heap.addRef_cell, h.cell b]
  counts := by
    have hlt := hw.reg_lt hn
    have hempty : p.2 (g.resultReg start n) = .empty := h.empty _ fun j hj he =>
      Nat.ne_of_gt hj (hw.reg_inj hn (Nat.lt_trans hj hn) he).2
    have hmem : g.resultReg start n ∈ g.resultsIndex start := by
      rw [AsyncGraph.resultReg, List.getD_eq_getElem _ _ hn]
      exact List.getElem_mem _
    have hdrop : (arguments.take (g.numResults start)).drop n =
        a :: (arguments.take (g.numResults start)).drop (n + 1) := by
      have hget : (arguments.take (g.numResults start))[n]? = some a := by
        rw [List.getElem?_take_of_lt hn, ha]
      obtain ⟨hl, he⟩ := List.getElem?_eq_some_iff.mp hget
      rw [List.drop_eq_getElem_cons hl, he]
    have hk := h.counts
    rw [hdrop] at hk
    have hpos : 0 < p.1.refs a := hk.pos (by simp [List.count_cons])
    refine (hk.addRef hpos (g.userCount (g.resultReg start n))).congr ?_
    rw [hw.userCount_eq hlt]
    set p' := (p.1.addRef a (g.reads (g.resultReg start n)),
      Function.update p.2 (g.resultReg start n) (.direct a))
    have e1 : (started g promised p).regs (g.resultReg start n) = .empty := hempty
    have e2 : (started g promised p').regs (g.resultReg start n) = .direct a :=
      Function.update_self ..
    have e3 : promisedRefs (started g promised p') = promisedRefs (started g promised p) := rfl
    have hch := rest_change (g := g) (R := 0) start handles (started g promised p)
      (started g promised p') g.reads g.reads hlt rfl fun q hq => ⟨Function.update_of_ne hq _ _, rfl, rfl⟩
    have hslot : ∀ q, (started g promised q : Shared V E).results (g.resultReg start n) = .empty :=
      fun _ => rfl
    funext x
    have hx := congrFun hch x
    simp only [rest, e1, e2, e3, hslot, Pi.add_apply, entryRefs, Reg.ptr_empty, Reg.ptr_direct,
      Option.elim_none, Option.elim_some, slotRefs, entryBase, if_pos hmem, Pi.zero_apply,
      reduceCtorEq, ↓reduceIte, Pi.single_apply, List.count_cons, beq_iff_eq, @eq_comm _ a x]
      at hx ⊢
    by_cases hxa : x = a
    · simp only [if_pos hxa] at hx ⊢
      omega
    · simp only [if_neg hxa] at hx ⊢
      omega

theorem Loaded.foldl (hw : g.Wired start) {n : Nat}
    {p : Heap V E Closure × (Nat → Reg)}
    (h : Loaded g start handles heap promised arguments n p) (args : List Addr)
    (hargs : args = (arguments.take (g.numResults start)).drop n) :
    Loaded g start handles heap promised arguments (n + args.length)
      ((args.zipIdx n).foldl (fun p a =>
        (p.1.addRef a.1 (g.userCount (g.resultReg start a.2)),
          Function.update p.2 (g.resultReg start a.2) (.direct a.1))) p) := by
  induction args generalizing n p with
  | nil => exact h
  | cons a args ih =>
    have hget : (arguments.take (g.numResults start))[n]? = some a := by
      have : ((arguments.take (g.numResults start)).drop n)[0]? =
          (arguments.take (g.numResults start))[n + 0]? := List.getElem?_drop
      rw [← hargs] at this
      exact this.symm
    have hn : n < g.numResults start := by
      have := (List.getElem?_eq_some_iff.mp hget).1
      rw [List.length_take] at this
      omega
    have ha : arguments[n]? = some a := by
      rw [← hget, List.getElem?_take_of_lt hn]
    have htail : args = (arguments.take (g.numResults start)).drop (n + 1) := by
      rw [← List.tail_drop, ← hargs, List.tail_cons]
    have := ih (h.step hw hn ha) htail
    rw [List.length_cons, ← Nat.add_assoc, Nat.add_right_comm]
    exact this

/-- What `InitializeArgumentRegisters` does. -/
theorem Caller.initialized (hw : g.Wired start)
    (hc : Caller g start handles heap promised arguments) :
    Loaded g start handles heap promised arguments (g.numResults start)
      (initializeArgumentRegisters g start heap arguments) := by
  have := hc.loaded.foldl hw (arguments.take (g.numResults start)) (List.drop_zero).symm
  rwa [List.length_take, Nat.min_eq_left hc.enough, Nat.zero_add] at this

theorem weight_eq_zero {ι : Type} {f : Op → ι → Nat} {x : ι} {A : Multiset Op}
    (h : ∀ op ∈ A, f op x = 0) : weight f A x = 0 := by
  refine Nat.eq_zero_of_not_pos fun hpos => ?_
  obtain ⟨op, hop, hf⟩ := exists_of_weight_pos f x hpos
  exact Nat.ne_of_gt hf (h op hop)

theorem running_init : (init g start heap promised arguments).running = ↑(mainFrame g start).ops := by
  simp [St.running, init]

/-- The operations of `Execute`. -/
theorem mem_mainFrame {op : Op} (h : op ∈ (mainFrame g start).ops) :
    (∃ j, j < g.numResults start ∧ op = .pseudoKernel j) ∨ op = .processReadyKernels ∨
      (∃ r ∈ g.resultRegs, op = .getResult r) ∨ op = .dropExecutor := by
  simp only [mainFrame, Frame.ops, List.map_nil, List.nil_append, List.mem_append, List.mem_map,
    List.mem_range, List.mem_cons, List.not_mem_nil, or_false] at h
  rcases h with (⟨j, hj, rfl⟩ | rfl | ⟨r, hr, rfl⟩) | rfl
  · exact .inl ⟨j, hj, rfl⟩
  · exact .inr (.inl rfl)
  · exact .inr (.inr (.inl ⟨r, List.mem_of_mem_take hr, rfl⟩))
  · exact .inr (.inr (.inr rfl))

theorem Loaded.waitingOps {n : Nat} {p : Heap V E Closure × (Nat → Reg)}
    (h : Loaded g start handles heap promised arguments n p) :
    waitingOps start p.1 = GraphExecutor.waitingOps start heap := by
  unfold GraphExecutor.waitingOps Heap.waiting
  rw [h.next]
  exact Finset.sum_congr rfl fun a _ => by rw [h.cell a]

/-- Only forwarding waits at the start. -/
theorem Caller.mem_waitingOps (hc : Caller g start handles heap promised arguments) {op : Op}
    (h : op ∈ waitingOps start heap) : ∃ i v, op = .forwardTo i v ∧ i < heap.next ∧ v < heap.next ∧
      (heap.cell i).mKind = .kIndirect := by
  obtain ⟨v, hv, w, hw, hop⟩ := GraphExecutor.mem_waitingOps.mp h
  obtain ⟨i, rfl, hi⟩ := hc.waiters v w hw
  have hpos := Heap.le_waiting (Waiter.refs Closure.refs) i hv hw
  have hacc := hc.counts.acc i
  refine ⟨i, v, List.mem_singleton.mp hop, hc.counts.wf.lt_next ?_, hv, hi⟩
  simp only [Waiter.refs, Pi.add_apply, Pi.single_eq_same] at hpos hacc
  omega

theorem Caller.mem_agenda (hw : g.Wired start)
    (hc : Caller g start handles heap promised arguments) {op : Op}
    (h : op ∈ (init g start heap promised arguments).agenda start) :
    op ∈ (mainFrame g start).ops ∨ op ∈ waitingOps start heap := by
  rcases Multiset.mem_add.mp h with h | h
  · rw [running_init] at h
    exact .inl h
  · rw [show (init g start heap promised arguments).sh.heap =
      (initializeArgumentRegisters g start heap arguments).1 from rfl,
      (hc.initialized hw).waitingOps] at h
    exact .inr h

/-- A weight that only forwarding or taking results has. -/
theorem Caller.weight_agenda (hw : g.Wired start)
    (hc : Caller g start handles heap promised arguments) {ι : Type} {f : Op → ι → Nat} {x : ι}
    (h1 : ∀ j, f (.pseudoKernel j) x = 0) (h2 : f .processReadyKernels x = 0)
    (h3 : f .dropExecutor x = 0) (h4 : ∀ r, f (.getResult r) x = 0)
    (h5 : ∀ i v, f (.forwardTo i v) x = 0) :
    weight f ((init g start heap promised arguments).agenda start) x = 0 := by
  refine weight_eq_zero fun op hop => ?_
  rcases hc.mem_agenda hw hop with h | h
  · rcases mem_mainFrame h with ⟨j, -, rfl⟩ | rfl | ⟨r, -, rfl⟩ | rfl
    · exact h1 j
    · exact h2
    · exact h4 r
    · exact h3
  · obtain ⟨i, v, rfl, -⟩ := hc.mem_waitingOps h
    exact h5 i v

theorem Loaded.mem_start {p : Heap V E Closure × (Nat → Reg)}
    (h : Loaded g start handles heap promised arguments (g.numResults start) p) {r : Nat} :
    (r ∈ g.resultsIndex start → ∃ a, p.2 r = .direct a) ∧
      (r ∉ g.resultsIndex start → p.2 r = .empty) := by
  refine ⟨fun hr => ?_, fun hr => ?_⟩
  · obtain ⟨j, hj, he⟩ := List.mem_iff_getElem.mp hr
    obtain ⟨a, -, ha⟩ := h.filled j hj
    rw [AsyncGraph.resultReg, List.getD_eq_getElem _ _ hj, he] at ha
    exact ⟨a, ha⟩
  · refine h.empty r fun j hj he => hr ?_
    rw [he, AsyncGraph.resultReg, List.getD_eq_getElem _ _ hj]
    exact List.getElem_mem _

theorem start_lt (hw : g.Wired start) : start < g.numKernels := by
  have := hw.start_eq
  unfold AsyncGraph.startNode at this
  exact (List.findIdx?_eq_some_iff_getElem.mp this).1

/-- The registers of the start node are delivered, all others expect their producer. -/
theorem Caller.delivery (hw : g.Wired start)
    (hc : Caller g start handles heap promised arguments) (r : Nat) :
    deliveries g start (init g start heap promised arguments).sh
        ((init g start heap promised arguments).agenda start) r +
      isDelivered (init g start heap promised arguments).sh r = produces g r := by
  have hl := (hc.initialized hw).mem_start (r := r)
  have hcount : (g.resultsIndex start).count r ≤ 1 := by
    refine Nat.le_trans ?_ (produces_le hw r)
    exact Finset.single_le_sum (f := fun k => (g.resultsIndex k).count r)
      (fun _ _ => Nat.zero_le _) (Finset.mem_range.mpr (start_lt hw))
  have hdel : isDelivered (init g start heap promised arguments).sh r =
      (g.resultsIndex start).count r := by
    by_cases hr : r ∈ g.resultsIndex start
    · obtain ⟨a, ha⟩ := hl.1 hr
      have h1 := List.count_pos_iff.mpr hr
      have h2 : isDelivered (init g start heap promised arguments).sh r = 1 := by
        unfold isDelivered
        rw [show (init g start heap promised arguments).sh.regs r = .direct a from ha]
        rfl
      omega
    · rw [List.count_eq_zero_of_not_mem hr, isDelivered,
        show (init g start heap promised arguments).sh.regs r = .empty from hl.2 hr]
      rfl
  have hrest : unlogged g [] (resultsOf g start r) + (g.resultsIndex start).count r =
      produces g r := by
    have hmem := Finset.mem_range.mpr (start_lt hw)
    unfold unlogged produces
    simp only [List.not_mem_nil, not_false_eq_true, Finset.filter_true]
    rw [← Finset.add_sum_erase _ _ hmem, ← Finset.add_sum_erase _ (fun k =>
      (g.resultsIndex k).count r) hmem, resultsOf, if_pos rfl]
    have : ∑ k ∈ (Finset.range g.numKernels).erase start, resultsOf g start r k =
        ∑ k ∈ (Finset.range g.numKernels).erase start, (g.resultsIndex k).count r :=
      Finset.sum_congr rfl fun k hk => if_neg (Finset.ne_of_mem_erase hk)
    omega
  rw [hdel, deliveries, hc.weight_agenda hw (f := Op.delivery g) (fun _ => rfl) rfl rfl
    (fun _ => rfl) fun _ _ => rfl, Nat.add_zero]
  exact hrest

theorem Caller.flow (hw : g.Wired start) (hc : Caller g start handles heap promised arguments) :
    Flow g start (init g start heap promised arguments).sh
      ((init g start heap promised arguments).agenda start) where
  valid := by
    intro op hop
    rcases hc.mem_agenda hw hop with h | h
    · rcases mem_mainFrame h with ⟨j, hj, rfl⟩ | rfl | ⟨r, hr, rfl⟩ | rfl
      · exact hj
      · trivial
      · exact hr
      · trivial
    · obtain ⟨i, v, rfl, -⟩ := hc.mem_waitingOps h
      trivial
  once := by
    intro n
    rw [hc.weight_agenda hw (f := Op.occurrence) (fun _ => rfl) rfl rfl (fun _ => rfl)
      fun _ _ => rfl]
    show 0 + 0 + (if 0 < (g.counter n : Int) then 1 else 0) = _
    simp
  delivery := hc.delivery hw

theorem nodup_taken (hw : g.Wired start) : (g.resultRegs.take g.mOutputNames.length).Nodup :=
  hw.resultRegs_nodup.sublist (List.take_sublist ..)

/-- `Execute` is going to fill the slot of every output register. -/
theorem Caller.take_agenda (hw : g.Wired start)
    (hc : Caller g start handles heap promised arguments) (r : Nat) :
    weight Op.take ((init g start heap promised arguments).agenda start) r =
      (g.resultRegs.take g.mOutputNames.length).count r := by
  have hwait : weight Op.take (waitingOps start heap) r = 0 := by
    refine weight_eq_zero fun op hop => ?_
    obtain ⟨i, v, rfl, -⟩ := hc.mem_waitingOps hop
    rfl
  have hmain : ((mainFrame g start).ops.map fun op => op.take r).sum =
      (g.resultRegs.take g.mOutputNames.length).count r := by
    simp only [mainFrame, Frame.ops, List.map_nil, List.nil_append, List.map_append,
      List.sum_append, List.map_cons, List.sum_cons, List.map_map, Op.take, Function.comp_def,
      Pi.zero_apply, List.sum_nil, List.map_const', List.sum_replicate_nat, Nat.mul_zero,
      Nat.zero_add, Nat.add_zero]
    exact sum_map_single _ r
  rw [St.agenda, weight_add, running_init, weight_coe, hmain,
    show (init g start heap promised arguments).sh.heap =
      (initializeArgumentRegisters g start heap arguments).1 from rfl,
    (hc.initialized hw).waitingOps, hwait, Nat.add_zero]

theorem Caller.slots (hw : g.Wired start) (hc : Caller g start handles heap promised arguments) :
    Slots g start (init g start heap promised arguments).sh
      ((init g start heap promised arguments).agenda start) where
  inRange := by
    intro r hr
    have hmem : r ∈ g.resultsIndex start := by
      by_contra hno
      exact hr ((hc.initialized hw).mem_start.2 hno)
    obtain ⟨j, hj, he⟩ := List.mem_iff_getElem.mp hmem
    have := hw.reg_lt hj
    rwa [AsyncGraph.resultReg, List.getD_eq_getElem _ _ hj, he] at this
  starts r hr := (hc.initialized hw).mem_start.1 hr
  existing := by
    intro k j i v hop
    rcases hc.mem_agenda hw hop with h | h
    · rcases mem_mainFrame h with ⟨j, -, h⟩ | h | ⟨r, -, h⟩ | h <;> cases h
    · obtain ⟨i, v, h, -⟩ := hc.mem_waitingOps h
      cases h
  held r a h := by cases h
  taken := by
    intro r
    rw [hc.take_agenda hw]
    exact List.nodup_iff_count_le_one.mp (nodup_taken hw) r
  turn := by
    intro r hr
    rw [hc.take_agenda hw]
    exact List.count_eq_one_of_mem (nodup_taken hw) hr
  output r h := absurd rfl h
  dropped r h := by cases h

theorem Caller.counted (hw : g.Wired start) (hc : Caller g start handles heap promised arguments) :
    Counted g start handles (init g start heap promised arguments).sh
      (init g start heap promised arguments).running := by
  have hzero : ∀ {ι : Type} {f : Op → ι → Nat} {x : ι}, (∀ j, f (.pseudoKernel j) x = 0) →
      f .processReadyKernels x = 0 → f .dropExecutor x = 0 → (∀ r, f (.getResult r) x = 0) →
      weight f (init g start heap promised arguments).running x = 0 := by
    intro ι f x h1 h2 h3 h4
    refine weight_eq_zero fun op hop => ?_
    rw [running_init] at hop
    rcases mem_mainFrame hop with ⟨j, -, rfl⟩ | rfl | ⟨r, -, rfl⟩ | rfl
    · exact h1 j
    · exact h2
    · exact h4 r
    · exact h3
  have huses : uses g (init g start heap promised arguments).sh
      (init g start heap promised arguments).running = g.reads := by
    funext r
    rw [uses, hzero (fun _ => rfl) rfl rfl fun _ => rfl, Nat.add_zero]
    show ∑ n ∈ (Finset.range g.numKernels).filter (· ∉ []), _ = _
    simp [AsyncGraph.reads]
  refine ⟨fun r _ => congrFun huses r, (hc.initialized hw).counts.congr ?_⟩
  have hops : weight (Op.refs g) (init g start heap promised arguments).running = 0 := by
    funext x
    exact hzero (fun _ => rfl) rfl rfl fun _ => rfl
  have hdrop : (arguments.take (g.numResults start)).drop (g.numResults start) = [] :=
    List.drop_eq_nil_of_le (List.length_take_le ..)
  rw [owed, huses, rest, hops, hdrop]
  rfl

theorem Caller.resolving (hw : g.Wired start) (hc : Caller g start handles heap promised arguments) :
    Resolving g (init g start heap promised arguments).sh
      ((init g start heap promised arguments).agenda start) := by
  have hl := hc.initialized hw
  have hcell : ∀ b, (init g start heap promised arguments).sh.heap.cell b =
      { heap.cell b with mRefCount := (init g start heap promised arguments).sh.heap.refs b } :=
    hl.cell
  have hreg : ∀ r i, (init g start heap promised arguments).sh.regs r ≠ .installed i := by
    intro r i hi
    by_cases hr : r ∈ g.resultsIndex start
    · obtain ⟨a, ha⟩ := hl.mem_start.1 hr
      rw [show (init g start heap promised arguments).sh.regs r = .direct a from ha] at hi
      cases hi
    · rw [show (init g start heap promised arguments).sh.regs r = .empty from hl.mem_start.2 hr]
        at hi
      cases hi
  refine ⟨fun a => ?_, fun op hop i hi => ?_, fun r i hi => absurd hi (hreg r i),
    fun op hop a ha => ?_, fun r a ha => ?_⟩
  · have h1 : installs g (init g start heap promised arguments).sh a = 0 :=
      Finset.sum_eq_zero fun r _ => if_neg (hreg r a)
    have h2 : weight Op.forwards ((init g start heap promised arguments).agenda start) a =
        Heap.waiting forwarding heap a := by
      rw [St.agenda, weight_add, running_init, weight_eq_zero (A := ↑(mainFrame g start).ops),
        show (init g start heap promised arguments).sh.heap =
          (initializeArgumentRegisters g start heap arguments).1 from rfl, hl.waitingOps,
        weight_waitingOps, Heap.waiting_apply, Nat.zero_add]
      · refine Finset.sum_congr rfl fun b _ => congrArg List.sum (List.map_congr_left fun w hw' => ?_)
        obtain ⟨i, rfl, -⟩ := hc.waiters b w hw'
        rfl
      · intro op hop
        rcases mem_mainFrame hop with ⟨j, -, rfl⟩ | rfl | ⟨r, -, rfl⟩ | rfl <;> rfl
    have h3 : resolved (init g start heap promised arguments).sh.heap a = resolved heap a :=
      resolved_congr (by rw [hcell])
    rw [resolvers, h1, h2, h3, Nat.add_zero]
    exact hc.once a
  · rcases hc.mem_agenda hw hop with h | h
    · rcases mem_mainFrame h with ⟨j, -, rfl⟩ | rfl | ⟨r, -, rfl⟩ | rfl <;>
        exact absurd hi (Nat.lt_irrefl 0)
    · obtain ⟨j, v, rfl, -, -, hk⟩ := hc.mem_waitingOps h
      simp only [Op.forwards, Pi.single_apply] at hi
      split at hi
      · rename_i he
        rw [hcell, he]
        exact hk
      · exact absurd hi (Nat.lt_irrefl 0)
  · have hn : (init g start heap promised arguments).sh.heap.next = heap.next := hl.next
    rw [hn]
    rcases hc.mem_agenda hw hop with h | h
    · rcases mem_mainFrame h with ⟨j, -, rfl⟩ | rfl | ⟨r, -, rfl⟩ | rfl <;> cases ha
    · obtain ⟨i, v, rfl, hi, hv, -⟩ := hc.mem_waitingOps h
      simp only [Op.touches, List.mem_cons, List.not_mem_nil, or_false] at ha
      rcases ha with rfl | rfl
      · exact hi
      · exact hv
  · have hr : r ∈ g.resultsIndex start := by
      by_contra hno
      rw [show (init g start heap promised arguments).sh.regs r = .empty from hl.mem_start.2 hno]
        at ha
      cases ha
    have hco := hc.counted hw
    refine hco.lt_next (hco.pos_entry ((hc.slots hw).inRange r fun he => ?_) ?_)
    · rw [he] at ha
      cases ha
    · have hslot : (init g start heap promised arguments).sh.results r = .empty := rfl
      simp [entryRefs, ha, hslot, entryBase, hr]

/-! ## A caller -/

/-- The heap of a caller that has made the values `fs` and holds one reference to each. -/
def argumentHeap (fs : List (Fresh V E)) : Heap V E Closure :=
  dropReady (addRefs (allocAll .empty fs) (List.range fs.length)) 0 fs

theorem argumentHeap_waiters (fs : List (Fresh V E)) (a : Addr) :
    ((argumentHeap fs).cell a).waiters = [] := by
  rw [argumentHeap, dropReady_waiters, addRefs_waiters, allocAll_cell _ _ 0 rfl, if_pos (Nat.zero_le a)]
  cases fs[a - 0]? <;> rfl

/-- The values that a caller made can be given to any graph. -/
theorem caller_argumentHeap (g : AsyncGraph F) (start : Nat) (fs : List (Fresh V E))
    (hl : fs.length = g.numResults start) :
    Caller g start 0 (argumentHeap fs) (promises 0 fs) (List.range fs.length) where
  enough := by rw [List.length_range, hl]
  counts := by
    have h0 : (Heap.empty : Heap V E Closure).Ok Closure.refs 0 := .empty
    have h1 := Ok.allocAll fs h0
    have h2 := Ok.addRefs (List.range fs.length) h1 fun a ha => h1.pos (by
      simp [freshRefs, Heap.empty, List.mem_range.mp ha])
    have h3 := Ok.dropReady 0 fs (h2.congr (add_right_comm _ _ _))
    refine h3.congr ?_
    rw [← hl, List.take_of_length_le (by rw [List.length_range])]
    abel
  waiters a w hw := by
    rw [argumentHeap_waiters] at hw
    cases hw
  once := by
    intro a
    have h1 : Heap.waiting forwarding (argumentHeap fs) a = 0 := by
      rw [Heap.waiting_apply]
      exact Finset.sum_eq_zero fun b _ => by rw [argumentHeap_waiters]; rfl
    have h2 : ((argumentHeap fs).cell a).state =
        ((fs[a]?.elim (Heap.empty.cell a) fun f => f.cell 1) : Cell V E Closure).state := by
      rw [argumentHeap, dropReady_state, addRefs_state, allocAll_cell _ _ 0 rfl,
        if_pos (Nat.zero_le a)]
      rfl
    rw [h1, resolved, Heap.isAvailable, h2]
    cases hf : fs[a]? with
    | none =>
      rw [Option.elim_none]
      simp [promises, hf, Heap.empty, State.isAvailable]
    | some f =>
      rw [Option.elim_some]
      by_cases hform : f.form = .ready
      · have : promises 0 fs a = false := by simp [promises, hf, hform]
        rw [this, if_neg Bool.false_ne_true]
        split <;> simp
      · rw [unavailable_of_promised hform]
        split <;> simp

/-! ## All runs -/

/-- The invariant holds initially. -/
theorem Caller.safe (hw : g.Wired start) (hc : Caller g start handles heap promised arguments) :
    Safe g start handles (init g start heap promised arguments) :=
  ⟨hc.flow hw, hc.slots hw, hc.resolving hw, hc.counted hw⟩

/-- The invariant holds in every run. -/
theorem Safe.reach (hw : g.Wired start) (hc : Caller g start handles heap promised arguments)
    {s : St V E} (hs : (sys g start heap promised arguments).Reach DropsDelivered s) :
    Safe g start handles s := by
  refine hs.invariant (fun s h => ?_) fun s l s' h hok hn => h.step hw hn hok
  rw [show s = init g start heap promised arguments from h]
  exact hc.safe hw

end Start

/-! ## Concrete runs -/

section Concrete

variable (g start) (fs : List (Fresh V E))

/-- All runs of a caller that has made the values `fs`. -/
def callSys : Sys (St V E) (Label V E) :=
  sys g start (argumentHeap fs) (promises 0 fs) (List.range fs.length)

/-- The state of such a run after `ls`. -/
def after (ls : List (Label V E)) : Option (St V E) :=
  runLabels (step g start)
    (init g start (argumentHeap fs) (promises 0 fs) (List.range fs.length)) ls

variable {g start fs} {s : St V E}

theorem reach_after (ls : List (Label V E)) (hs : after g start fs ls = some s) : (callSys g start fs).Reach Any s :=
  reach_runLabels (fun _ => True) (.init rfl) ls (fun _ _ => trivial) hs

/-- A run in which nothing is dropped. -/
theorem reach_after_kept (ls : List (Label V E)) (hl : ∀ l ∈ ls, ∀ r, l ≠ .dropResult r)
    (hs : after g start fs ls = some s) : (callSys g start fs).Reach DropsDelivered s :=
  (reach_runLabels (fun l => ∀ r, l ≠ .dropResult r) (.init rfl) ls hl hs).mono
    fun _ _ h r he => absurd he (h r)

/-- An available value. -/
def readyValue : Fresh Nat Unit := ⟨.ready, 0, .ok 5⟩

/-- A value that is resolved later. -/
def laterValue : Fresh Nat Unit := ⟨.later, 0, .ok 5⟩

/-- The next operation of thread `t`; a kernel returns the value `f`. -/
def runReturning (t : Nat) (f : Fresh Nat Unit) : Label Nat Unit := .run t ⟨⟨[f], [.fresh 0]⟩, false⟩

end Concrete

end GraphExecutor

end AsyncLib
