import Mathlib.Algebra.Order.BigOperators.Group.Multiset
import AsyncLib.Runtime.ExecutorSteps

/-!
# Kernels are processed once and results delivered once

Invariants of the executor that hold for every graph with unique producers, whatever its counters
are: a kernel that was decremented to 0 is never pushed again, so it is processed at most once, and
each of its results is delivered at most once.

* `weight f A`: the weight of an agenda, for a weight of its operations.
* `Op.Valid`: the indices that an operation carries.
* `Flow`: the invariant. `Op.occurrence` counts the places where a kernel is going to be processed,
  `deliveries` the deliveries that a register has still to expect.
-/

namespace AsyncLib

namespace GraphExecutor

open AsyncValue Sys Agenda

/-! ## Weights -/

section Weight

variable {ι : Type}

/-- The weight of an agenda at `x`. -/
def weight (f : Op → ι → Nat) (A : Multiset Op) (x : ι) : Nat := (A.map fun op => f op x).sum

variable (f : Op → ι → Nat) (x : ι)

@[simp] theorem weight_add (A B : Multiset Op) : weight f (A + B) x = weight f A x + weight f B x := by
  simp [weight]

@[simp] theorem weight_coe (l : List Op) : weight f ↑l x = (l.map fun op => f op x).sum := by
  simp [weight]

theorem le_weight {A : Multiset Op} {op : Op} (h : op ∈ A) : f op x ≤ weight f A x :=
  Multiset.single_le_sum (fun _ _ => Nat.zero_le _) _ (Multiset.mem_map_of_mem _ h)

theorem exists_of_weight_pos {A : Multiset Op} (h : 0 < weight f A x) : ∃ op ∈ A, 0 < f op x := by
  by_contra hno
  refine Nat.ne_of_gt h (Multiset.sum_eq_zero fun n hn => ?_)
  obtain ⟨op, hop, rfl⟩ := Multiset.mem_map.mp hn
  exact Nat.eq_zero_of_not_pos fun h0 => hno ⟨op, hop, h0⟩

end Weight

section Sums

/-- A list of indicators counts. -/
theorem sum_map_single (l : List Nat) (x : Nat) :
    (l.map fun a => (Pi.single a 1 : Nat → Nat) x).sum = l.count x := by
  induction l with
  | nil => rfl
  | cons a l ih =>
    rw [List.map_cons, List.sum_cons, ih, List.count_cons, Pi.single_apply, Nat.add_comm]
    simp only [beq_iff_eq, @eq_comm _ x a]

/-- The indices of a list count its elements. -/
theorem sum_zipIdx_single {α : Type} (outs : List α) (l : List Nat) (h : outs.length = l.length)
    (x : Nat) :
    (outs.zipIdx.map fun p => (Pi.single (l.getD p.2 0) 1 : Nat → Nat) x).sum = l.count x := by
  have hmap : outs.zipIdx.map (fun p => l.getD p.2 0) = l := by
    refine List.ext_getElem? fun i => ?_
    rw [List.getElem?_map, List.getElem?_zipIdx]
    by_cases hi : i < l.length
    · rw [List.getElem?_eq_getElem (by omega), List.getElem?_eq_getElem hi]
      simp [hi]
    · rw [List.getElem?_eq_none (by omega), List.getElem?_eq_none (by omega)]
      rfl
  have hcomp : (fun p : α × Nat => (Pi.single (l.getD p.2 0) 1 : Nat → Nat) x) =
      (fun a => (Pi.single a 1 : Nat → Nat) x) ∘ fun p => l.getD p.2 0 := rfl
  rw [hcomp, ← List.map_map, hmap, sum_map_single]

end Sums

variable {F V E : Type} (g : AsyncGraph F) (start : Nat)

/-! ## Indices -/

/-- A kernel that the executor may process. -/
def Runs (k : Nat) : Prop := k ≠ start ∧ k < g.numKernels

/-- The continuation of a load of the register `r`. -/
def Cont.Valid (r : Nat) : Cont → Prop
  | .addArg k todo args err => Runs g start k ∧ (∀ q ∈ r :: todo, q ∈ g.argumentsIdx k) ∧
      ∀ e, err = some e → e ∈ args
  | .takeResult r' => r' = r ∧ r ∈ g.resultRegs

/-- The indices of an operation are in range, and no operation is about the start node as a
kernel. -/
def Op.Valid : Op → Prop
  | .pseudoKernel j => j < g.numResults start
  | .pseudoAndThen j _ => j < g.numResults start
  | .decreaseReadyCounts k j => j < g.numResults k
  | .decreaseReadyCount u => Runs g start u
  | .enqueueWork k => Runs g start k
  | .processReadyKernel k => Runs g start k
  | .addArgs k todo args err => Runs g start k ∧ (∀ q ∈ todo, q ∈ g.argumentsIdx k) ∧
      ∀ e, err = some e → e ∈ args
  | .installIndirect r _ c => c.Valid g start r
  | .callKernel k args err => Runs g start k ∧ ∀ e, err = some e → e ∈ args
  | .processUsedBy k j _ => Runs g start k ∧ j < g.numResults k
  | .andThen k j _ => Runs g start k ∧ j < g.numResults k
  | .setAsyncValuePtr k j _ => Runs g start k ∧ j < g.numResults k
  | .casAsyncValuePtr k j _ => Runs g start k ∧ j < g.numResults k
  | .forwardExisting k j _ _ => Runs g start k ∧ j < g.numResults k
  | .getResult r => r ∈ g.resultRegs
  | _ => True

theorem Cont.valid_op {r : Nat} {c : Cont} (hc : c.For r) :
    (c.op r).Valid g start ↔ c.Valid g start r := by
  cases c with
  | addArg k todo args err => exact Iff.rfl
  | takeResult r' =>
    have : r' = r := hc
    subst this
    exact (and_iff_right rfl).symm

variable {g start}

theorem Cont.valid_resume {sh : Shared V E} {r : Nat} {v : Addr} {c : Cont}
    (h : c.Valid g start r) : ∀ op ∈ (c.resume sh v).2, op.Valid g start := by
  cases c with
  | addArg k todo args err =>
    obtain ⟨h1, h2, h3⟩ := h
    intro op hop
    simp only [Cont.resume, List.mem_singleton] at hop
    subst hop
    refine ⟨h1, fun q hq => h2 q (List.mem_cons_of_mem _ hq), fun e he => ?_⟩
    split at he
    · cases he
      simp
    · exact List.mem_append_left _ (h3 e he)
  | takeResult r' => simp [Cont.resume]

theorem valid_afterCall {k : Nat} {args outs : List Addr} (hk : Runs g start k)
    (hl : outs.length = g.numResults k) : ∀ op ∈ afterCall k args outs, op.Valid g start := by
  intro op hop
  rcases mem_afterCall hop with ⟨a, -, rfl⟩ | ⟨j, v, hv, rfl⟩
  · trivial
  · exact ⟨hk, hl ▸ (List.getElem?_eq_some_iff.mp hv).1⟩

/-- A user of a result is a kernel that may be processed. -/
theorem runs_of_mem_users (hw : g.Wired start) {k j u : Nat} (hj : j < g.numResults k)
    (hu : u ∈ g.getNextUsedBys k j) : Runs g start u := by
  have hr := (hw.mem_users hj u).mp hu
  refine ⟨fun he => ?_, ?_⟩
  · rw [he, hw.start_args] at hr
    cases hr
  · by_contra hn
    have : g.argumentsIdx u = [] := by
      rw [AsyncGraph.argumentsIdx, List.getElem?_eq_none (Nat.le_of_not_lt hn)]
      rfl
    rw [this] at hr
    cases hr

/-- New operations are valid. -/
theorem Does.valid (hw : g.Wired start) {sh sh' : Shared V E} {old new net : List Op}
    (hd : Does g start sh old sh' new net) (hv : ∀ op ∈ old, op.Valid g start) :
    ∀ op ∈ net, op.Valid g start := by
  -- an operation that is replaced by one with the same indices
  have hone : ∀ {op : Op}, op.Valid g start → ∀ op' ∈ [op], op'.Valid g start := by
    intro op h op' hm
    rw [List.mem_singleton] at hm
    exact hm ▸ h
  cases hd with
  | skip | pseudoUnused | readyNil | dropRef | dropExecutor | dropResult | dropArgument =>
    intro op hop
    cases hop
  | pseudoFirst =>
    have h := hv _ (List.mem_singleton_self _)
    exact hone h
  | pseudoAvailable hp ha =>
    have h := hv _ (List.mem_singleton_self _)
    exact hone h
  | pseudoWait hp =>
    have h := hv _ (List.mem_singleton_self _)
    exact hone h
  | @pseudoAndThen j a ha =>
    have h : j < g.numResults start := hv _ (List.mem_singleton_self _)
    intro op hop
    simp only [waiterCode, List.mem_cons, List.not_mem_nil, or_false] at hop
    rcases hop with rfl | rfl | rfl
    · exact h
    · trivial
    · trivial
  | @decreaseAll k j =>
    have h : j < g.numResults k := hv _ (List.mem_singleton_self _)
    intro op hop
    obtain ⟨u, hu, rfl⟩ := List.mem_map.mp hop
    exact runs_of_mem_users hw h hu
  | decrease =>
    have h := hv _ (List.mem_singleton_self _)
    split
    · exact hone h
    · intro op hop
      cases hop
  | @readyCons k ks =>
    intro op hop
    simp only [List.mem_append, List.mem_map, List.mem_cons, List.not_mem_nil, or_false] at hop
    rcases hop with ⟨n, hn, rfl⟩ | rfl | rfl
    · exact hv (.processReadyKernel n) (by simp [hn])
    · exact hv (.processReadyKernel k) (by simp)
    · trivial
  | @enqueue k =>
    have h : Runs g start k := hv _ (List.mem_singleton_self _)
    intro op hop
    simp only [taskFrame, Frame.ops, List.map_cons, List.map_nil, List.singleton_append,
      List.mem_cons, List.not_mem_nil, or_false] at hop
    rcases hop with rfl | rfl | rfl
    · exact h
    · trivial
    · trivial
  | @process k =>
    have h : Runs g start k := hv _ (List.mem_singleton_self _)
    exact hone ⟨h, fun q hq => hq, fun e he => by cases he⟩
  | @addArgsNil k args err =>
    obtain ⟨h1, -, h3⟩ : Op.Valid g start (.addArgs k [] args err) := hv _ (List.mem_singleton_self _)
    exact hone ⟨h1, h3⟩
  | load hc hp =>
    exact Cont.valid_resume ((Cont.valid_op g start hc).mp (hv _ (List.mem_singleton_self _)))
  | make hc hp =>
    exact hone ((Cont.valid_op g start hc).mp (hv _ (List.mem_singleton_self _)))
  | install hp => exact Cont.valid_resume (hv _ (List.mem_singleton_self _))
  | discard hp => exact Cont.valid_resume (hv _ (List.mem_singleton_self _))
  | @callError k args e =>
    obtain ⟨h1, -⟩ : Op.Valid g start (.callKernel k args (some e)) := hv _ (List.mem_singleton_self _)
    exact valid_afterCall h1 List.length_replicate
  | @call k args outs o ho hl hb =>
    obtain ⟨h1, -⟩ : Op.Valid g start (.callKernel k args none) := hv _ (List.mem_singleton_self _)
    exact valid_afterCall h1 hl
  | usedBySet =>
    have h := hv _ (List.mem_singleton_self _)
    exact hone h
  | usedByWait =>
    have h := hv _ (List.mem_singleton_self _)
    exact hone h
  | @andThen k j v hlt =>
    have h : Op.Valid g start (.andThen k j v) := hv _ (List.mem_singleton_self _)
    intro op hop
    simp only [waiterCode, List.mem_cons, List.not_mem_nil, or_false] at hop
    rcases hop with rfl | rfl | rfl
    · exact h
    · trivial
    · trivial
  | set =>
    have h := hv _ (List.mem_singleton_self _)
    exact hone h
  | @store k j v hp =>
    have h : Op.Valid g start (.casAsyncValuePtr k j v) := hv _ (List.mem_singleton_self _)
    exact hone h.2
  | occupied =>
    have h := hv _ (List.mem_singleton_self _)
    exact hone h
  | @forwardExisting k j i v hi hlt =>
    have h : Op.Valid g start (.forwardExisting k j i v) := hv _ (List.mem_singleton_self _)
    intro op hop
    unfold pendingForward at hop
    split at hop <;> simp only [List.nil_append, List.singleton_append, List.mem_cons,
      List.not_mem_nil, or_false] at hop
    · subst hop
      exact h.2
    · rcases hop with rfl | rfl
      · trivial
      · exact h.2
  | forwardTo hi hlt =>
    intro op hop
    unfold pendingForward at hop
    split at hop <;> simp only [List.nil_append, List.singleton_append, List.mem_cons,
      List.not_mem_nil, or_false] at hop
    · subst hop
      trivial
    · rcases hop with rfl | rfl <;> trivial
  | resolveConcrete hp ha hk ho => exact hone trivial
  | resolveIndirect hp ha hk ho hh =>
    intro op hop
    unfold pendingForward at hop
    split at hop <;> simp only [List.nil_append, List.singleton_append, List.mem_cons,
      List.not_mem_nil, or_false] at hop
    · subst hop
      trivial
    · rcases hop with rfl | rfl <;> trivial

/-! ## Occurrences of a kernel -/

/-- The places where a kernel is going to be processed. -/
def Op.occurrence : Op → Nat → Nat
  | .enqueueWork k => Pi.single k 1
  | .processReadyKernel k => Pi.single k 1
  | _ => 0

/-- The counter of kernel `n` is positive. -/
def notReady (sh : Shared V E) (n : Nat) : Nat := if 0 < sh.mArgumentsNotReady n then 1 else 0

theorem Cont.resume_fields (c : Cont) (sh : Shared V E) (v : Addr) :
    (c.resume sh v).1.log = sh.log ∧ (c.resume sh v).1.regs = sh.regs ∧
    (c.resume sh v).1.mArgumentsNotReady = sh.mArgumentsNotReady ∧
    (c.resume sh v).1.promised = sh.promised ∧ (c.resume sh v).1.returned = sh.returned := by
  cases c <;> exact ⟨rfl, rfl, rfl, rfl, rfl⟩

theorem sum_occurrence_resume (c : Cont) (sh : Shared V E) (v : Addr) (n : Nat) :
    ((c.resume sh v).2.map fun op => op.occurrence n).sum = 0 := by
  cases c <;> rfl

theorem sum_occurrence_afterCall (k : Nat) (args outs : List Addr) (n : Nat) :
    ((afterCall k args outs).map fun op => op.occurrence n).sum = 0 := by
  simp [afterCall, Op.occurrence, Function.comp_def]

theorem sum_occurrence_pendingForward (h : Heap V E Closure) (i v : Addr) (n : Nat) :
    ((pendingForward h i v).map fun op => op.occurrence n).sum = 0 := by
  unfold pendingForward
  split <;> rfl

/-- A kernel is pushed when its counter reaches 0, and logged when it is taken. -/
theorem Does.occurrence {sh sh' : Shared V E} {old new net : List Op}
    (hd : Does g start sh old sh' new net) (n : Nat) :
    (net.map fun op => op.occurrence n).sum + sh'.log.count n + notReady sh' n =
      (old.map fun op => op.occurrence n).sum + sh.log.count n + notReady sh n := by
  have htask : ∀ ks : List Nat, ((ks.map Op.enqueueWork).map fun op => op.occurrence n).sum =
      ((ks.map Op.processReadyKernel).map fun op => op.occurrence n).sum := by
    intro ks
    simp only [List.map_map]
    rfl
  cases hd with
  | skip | pseudoFirst | pseudoUnused | pseudoAvailable | pseudoWait | pseudoAndThen | readyNil
  | addArgsNil | dropRef | usedBySet | usedByWait | andThen | set | store | occupied
  | dropExecutor | resolveConcrete | dropResult | dropArgument => rfl
  | decreaseAll => simp [Op.occurrence, Function.comp_def]
  | @decrease u =>
    have hu : notReady { sh with
        mArgumentsNotReady :=
          Function.update sh.mArgumentsNotReady u (sh.mArgumentsNotReady u - 1) } n +
        (if sh.mArgumentsNotReady u = 1 then (Pi.single u 1 : Nat → Nat) n else 0) =
        notReady sh n := by
      unfold notReady
      simp only [Function.update_apply, Pi.single_apply]
      by_cases hn : n = u
      · subst hn
        simp only [↓reduceIte]
        split <;> split <;> split <;> omega
      · simp [hn]
    have hl : ((if sh.mArgumentsNotReady u = 1 then [Op.processReadyKernel u] else []).map
        fun op => op.occurrence n).sum =
        if sh.mArgumentsNotReady u = 1 then (Pi.single u 1 : Nat → Nat) n else 0 := by
      split <;> simp [Op.occurrence]
    rw [hl, List.map_singleton, List.sum_singleton]
    show _ + sh.log.count n + _ = 0 + _ + _
    omega
  | @readyCons k ks =>
    rw [List.map_append, List.sum_append, htask]
    simp only [List.map_cons, List.map_nil, List.sum_cons, List.sum_nil, Op.occurrence,
      Pi.zero_apply]
    omega
  | enqueue => rfl
  | @process k =>
    simp only [List.map_cons, List.map_nil, List.sum_cons, List.sum_nil, Op.occurrence,
      List.count_cons, Pi.single_apply, Pi.zero_apply, notReady]
    by_cases hn : n = k
    · subst hn
      simp
      omega
    · simp [hn, Ne.symm hn]
  | @load r c v hc hp =>
    obtain ⟨h1, -, h3, -⟩ := c.resume_fields sh v
    rw [sum_occurrence_resume, h1, notReady, h3]
    cases c <;> rfl
  | @make r c hc hp => cases c <;> rfl
  | @install r ind c hp =>
    obtain ⟨h1, -, h3, -⟩ :=
      c.resume_fields { sh with regs := Function.update sh.regs r (.installed ind) } ind
    rw [sum_occurrence_resume, h1, notReady, h3]
    rfl
  | @discard r ind v c hp =>
    obtain ⟨h1, -, h3, -⟩ :=
      c.resume_fields { sh with heap := sh.heap.dropRef ind (g.userCount r + 1) } v
    rw [sum_occurrence_resume, h1, notReady, h3]
    rfl
  | callError =>
    rw [sum_occurrence_afterCall]
    rfl
  | call ho hl hb =>
    rw [sum_occurrence_afterCall]
    rfl
  | forwardExisting =>
    rw [List.map_append, List.sum_append, sum_occurrence_pendingForward]
    rfl
  | forwardTo =>
    rw [List.map_append, List.sum_append, sum_occurrence_pendingForward]
    rfl
  | resolveIndirect =>
    rw [List.map_append, List.sum_append, sum_occurrence_pendingForward]
    rfl

/-! ## Deliveries to a register -/

/-- The deliveries that an operation leads to. -/
def Op.delivery (g : AsyncGraph F) : Op → Nat → Nat
  | .addArgs k _ _ _ => fun r => (g.resultsIndex k).count r
  | .installIndirect _ _ (.addArg k _ _ _) => fun r => (g.resultsIndex k).count r
  | .callKernel k _ _ => fun r => (g.resultsIndex k).count r
  | .processUsedBy k j _ => Pi.single (g.resultReg k j) 1
  | .andThen k j _ => Pi.single (g.resultReg k j) 1
  | .setAsyncValuePtr k j _ => Pi.single (g.resultReg k j) 1
  | .casAsyncValuePtr k j _ => Pi.single (g.resultReg k j) 1
  | .forwardExisting k j _ _ => Pi.single (g.resultReg k j) 1
  | _ => 0

/-- A sum over the kernels that were not processed yet. -/
def unlogged (g : AsyncGraph F) (log : List Nat) (f : Nat → Nat) : Nat :=
  ∑ n ∈ Finset.range g.numKernels with n ∉ log, f n

theorem unlogged_cons {log : List Nat} {n : Nat} (hn : n < g.numKernels) (hl : n ∉ log)
    (f : Nat → Nat) : unlogged g log f = f n + unlogged g (n :: log) f := by
  unfold unlogged
  have hmem : n ∈ (Finset.range g.numKernels).filter (· ∉ log) :=
    Finset.mem_filter.mpr ⟨Finset.mem_range.mpr hn, hl⟩
  rw [← Finset.add_sum_erase _ _ hmem]
  refine congrArg (f n + ·) (Finset.sum_congr ?_ fun _ _ => rfl)
  ext m
  simp only [Finset.mem_erase, Finset.mem_filter, List.mem_cons, not_or]
  tauto

/-- The results of kernel `k`, if it is not the start node. -/
def resultsOf (g : AsyncGraph F) (start r k : Nat) : Nat :=
  if k = start then 0 else (g.resultsIndex k).count r

/-- The deliveries that a register has still to expect. -/
def deliveries (g : AsyncGraph F) (start : Nat) (sh : Shared V E) (A : Multiset Op) (r : Nat) : Nat :=
  unlogged g sh.log (resultsOf g start r) + weight (Op.delivery g) A r

/-- Something was delivered to the register. -/
def isDelivered (sh : Shared V E) (r : Nat) : Nat := if (sh.regs r).delivered.isSome then 1 else 0

/-- How many results have the register `r`. -/
def produces (g : AsyncGraph F) (r : Nat) : Nat :=
  ∑ k ∈ Finset.range g.numKernels, (g.resultsIndex k).count r

theorem sum_delivery_resume (c : Cont) (sh : Shared V E) (q : Nat) (ind v : Addr) (r : Nat) :
    ((c.resume sh v).2.map fun op => op.delivery g r).sum =
      (Op.installIndirect q ind c).delivery g r := by
  cases c <;> rfl

theorem delivery_op {q : Nat} (c : Cont) (ind : Addr) (r : Nat) :
    (c.op q).delivery g r = (Op.installIndirect q ind c).delivery g r := by
  cases c <;> rfl

theorem sum_delivery_afterCall {k : Nat} {args outs : List Addr}
    (hl : outs.length = g.numResults k) (r : Nat) :
    ((afterCall k args outs).map fun op => op.delivery g r).sum = (g.resultsIndex k).count r := by
  rw [afterCall, List.map_append, List.sum_append, List.map_map, List.map_map]
  have h0 : (args.map ((fun op => op.delivery g r) ∘ Op.dropRef)).sum = 0 := by
    simp [Function.comp_def, Op.delivery]
  rw [h0, Nat.zero_add]
  exact sum_zipIdx_single outs (g.resultsIndex k) hl r

theorem sum_delivery_pendingForward (h : Heap V E Closure) (i v : Addr) (r : Nat) :
    ((pendingForward h i v).map fun op => op.delivery g r).sum = 0 := by
  unfold pendingForward
  split <;> rfl

/-- The invariant of this file. -/
structure Flow (g : AsyncGraph F) (start : Nat) (sh : Shared V E) (A : Multiset Op) : Prop where
  valid : ∀ op ∈ A, op.Valid g start
  once : ∀ n, weight Op.occurrence A n + sh.log.count n + notReady sh n =
    if 0 < g.counter n then 1 else 0
  delivery : ∀ r, deliveries g start sh A r + isDelivered sh r = produces g r

section Flow

variable {sh sh' : Shared V E} {A R : Multiset Op} {old new net : List Op}

theorem Flow.once_le (h : Flow g start sh A) (n : Nat) :
    weight Op.occurrence A n + sh.log.count n + notReady sh n ≤ 1 := by
  rw [h.once n]
  split <;> omega

/-- A kernel that is going to be processed was not processed yet. -/
theorem Flow.fresh (h : Flow g start sh A) {k : Nat} (hk : .processReadyKernel k ∈ A) :
    Runs g start k ∧ k ∉ sh.log ∧ ¬ 0 < sh.mArgumentsNotReady k := by
  have hw := le_weight Op.occurrence k hk
  have ho := h.once_le k
  simp only [Op.occurrence, Pi.single_eq_same] at hw
  refine ⟨h.valid _ hk, fun hm => ?_, fun hc => ?_⟩
  · have := List.count_pos_iff.mpr hm
    omega
  · rw [notReady, if_pos hc] at ho
    omega

/-- The results of a kernel have different registers. -/
theorem resultsIndex_nodup (hw : g.Wired start) (k : Nat) : (g.resultsIndex k).Nodup := by
  refine List.nodup_iff_getElem?_ne_getElem?.mpr fun i j hij hj he => ?_
  have hi := Nat.lt_trans hij hj
  have hi' : i < g.numResults k := hi
  have hj' : j < g.numResults k := hj
  have := hw.reg_inj hi' hj' (by
    rw [AsyncGraph.resultReg, AsyncGraph.resultReg, List.getD_eq_getElem?_getD,
      List.getD_eq_getElem?_getD, he])
  omega

/-- The results of different kernels have different registers. -/
theorem produces_le (hw : g.Wired start) (r : Nat) : produces g r ≤ 1 := by
  have hcount : ∀ k, (g.resultsIndex k).count r ≤ 1 := fun k =>
    List.nodup_iff_count_le_one.mp (resultsIndex_nodup hw k) r
  have hmem : ∀ k, 0 < (g.resultsIndex k).count r →
      ∃ j, j < g.numResults k ∧ g.resultReg k j = r := by
    intro k hk
    obtain ⟨j, hj, he⟩ := List.mem_iff_getElem.mp (List.count_pos_iff.mp hk)
    exact ⟨j, hj, by rw [AsyncGraph.resultReg, List.getD_eq_getElem _ _ hj, he]⟩
  by_cases hex : ∃ k ∈ Finset.range g.numKernels, 0 < (g.resultsIndex k).count r
  · obtain ⟨k, hk, hpos⟩ := hex
    unfold produces
    rw [Finset.sum_eq_single_of_mem k hk fun k' _ hne => ?_]
    · exact hcount k
    · by_contra h0
      obtain ⟨j, hj, hr⟩ := hmem k hpos
      obtain ⟨j', hj', hr'⟩ := hmem k' (Nat.pos_of_ne_zero h0)
      exact hne (hw.reg_inj hj' hj (hr'.trans hr.symm)).1
  · have h0 : produces g r = 0 := Finset.sum_eq_zero fun k hk =>
      Nat.eq_zero_of_not_pos fun h => hex ⟨k, hk, h⟩
    omega

/-- A register that expects a delivery has got none yet. -/
theorem Flow.not_delivered (hw : g.Wired start) (h : Flow g start sh A) {op : Op} (hop : op ∈ A)
    {r : Nat} (hr : 0 < op.delivery g r) : (sh.regs r).delivered = none := by
  have h1 := le_weight (Op.delivery g) r hop
  have h2 := h.delivery r
  have h3 := produces_le hw r
  unfold deliveries isDelivered at h2
  cases hd : (sh.regs r).delivered with
  | none => rfl
  | some v =>
    simp only [hd, Option.isSome_some, ↓reduceIte] at h2
    omega

/-- What a step does to the deliveries. -/
theorem Does.delivery (hd : Does g start sh old sh' new net) (hf : Flow g start sh (↑old + R))
    (hw : g.Wired start) (r : Nat) :
    unlogged g sh'.log (resultsOf g start r) + (net.map fun op => op.delivery g r).sum +
        isDelivered sh' r =
      unlogged g sh.log (resultsOf g start r) + (old.map fun op => op.delivery g r).sum +
        isDelivered sh r := by
  have hmem : ∀ op ∈ old, op ∈ (↑old + R : Multiset Op) := fun op h => by simp [h]
  cases hd with
  | skip | pseudoFirst | pseudoUnused | pseudoAvailable | pseudoWait | pseudoAndThen | readyNil
  | addArgsNil | dropRef | usedBySet | usedByWait | andThen | set | enqueue
  | dropExecutor | resolveConcrete | dropResult | dropArgument => rfl
  | decreaseAll => simp [Op.delivery, Function.comp_def]
  | @decrease u =>
    have h0 : ((if sh.mArgumentsNotReady u = 1 then [Op.processReadyKernel u] else []).map
        fun op => op.delivery g r).sum = 0 := by
      split <;> rfl
    rw [h0]
    rfl
  | readyCons => simp [Op.delivery, Function.comp_def]
  | @process k =>
    obtain ⟨⟨h1, h2⟩, h3, -⟩ := hf.fresh (hmem (.processReadyKernel k) (by simp))
    rw [unlogged_cons h2 h3 (resultsOf g start r)]
    simp only [resultsOf, if_neg h1, List.map_cons, List.map_nil, List.sum_cons, List.sum_nil,
      Op.delivery, Pi.zero_apply, isDelivered]
    omega
  | @load q c v hc hp =>
    obtain ⟨h1, h2, -⟩ := c.resume_fields sh v
    rw [sum_delivery_resume c sh q 0, h1, isDelivered, h2, List.map_singleton, List.sum_singleton,
      delivery_op c 0]
    rfl
  | @make q c hc hp => cases c <;> rfl
  | @install q ind c hp =>
    obtain ⟨h1, h2, -⟩ :=
      c.resume_fields { sh with regs := Function.update sh.regs q (.installed ind) } ind
    have hsame : isDelivered { sh with regs := Function.update sh.regs q (.installed ind) } r =
        isDelivered sh r := by
      simp only [isDelivered, Function.update_apply]
      split
      · rename_i hq
        rw [hq, hp]
        rfl
      · rfl
    rw [sum_delivery_resume c _ q ind, h1, List.map_singleton, List.sum_singleton]
    unfold isDelivered at hsame ⊢
    rw [h2]
    exact congrArg (_ + ·) hsame
  | @discard q ind v c hp =>
    obtain ⟨h1, h2, -⟩ :=
      c.resume_fields { sh with heap := sh.heap.dropRef ind (g.userCount q + 1) } v
    rw [sum_delivery_resume c _ q ind, h1, isDelivered, h2, List.map_singleton, List.sum_singleton]
    rfl
  | @callError k args e =>
    rw [sum_delivery_afterCall List.length_replicate]
    rfl
  | call ho hl hb =>
    rw [sum_delivery_afterCall hl]
    rfl
  | @store k j v hp =>
    simp only [List.map_cons, List.map_nil, List.sum_cons, List.sum_nil, Op.delivery, Pi.zero_apply,
      isDelivered, Function.update_apply, Pi.single_apply]
    by_cases hr : r = g.resultReg k j
    · subst hr
      simp [hp]
    · simp [hr]
  | occupied => rfl
  | @forwardExisting k j i v hi hv =>
    have hnone := hf.not_delivered hw (hmem (.forwardExisting k j i v) (by simp))
      (r := g.resultReg k j) (by simp [Op.delivery])
    rw [List.map_append, List.sum_append, sum_delivery_pendingForward]
    simp only [List.map_cons, List.map_nil, List.sum_cons, List.sum_nil, Op.delivery,
      isDelivered, Function.update_apply, Pi.single_apply, Pi.zero_apply]
    by_cases hr : r = g.resultReg k j
    · subst hr
      simp [hnone]
    · simp [hr]
  | forwardTo =>
    rw [List.map_append, List.sum_append, sum_delivery_pendingForward]
    rfl
  | resolveIndirect =>
    rw [List.map_append, List.sum_append, sum_delivery_pendingForward]
    rfl

theorem Flow.preserved (hw : g.Wired start) (hd : Does g start sh old sh' new net)
    (hf : Flow g start sh (↑old + R)) : Flow g start sh' (↑net + R) where
  valid := by
    intro op hop
    rcases Multiset.mem_add.mp hop with h | h
    · exact hd.valid hw (fun op h => hf.valid op (by simp [h])) op (Multiset.mem_coe.mp h)
    · exact hf.valid op (by simp [h])
  once := by
    intro n
    have h1 := hf.once n
    have h2 := hd.occurrence n
    rw [weight_add, weight_coe] at h1 ⊢
    omega
  delivery := by
    intro r
    have h1 := hf.delivery r
    have h2 := hd.delivery hf hw r
    unfold deliveries at h1 ⊢
    rw [weight_add, weight_coe] at h1 ⊢
    omega

end Flow

end GraphExecutor

end AsyncLib
