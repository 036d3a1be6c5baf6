import AsyncLib.Runtime.TaskGraphSteps

/-!
# Runs of `TaskGraphExecutor`

* `Accounts`: what the counters of the executor say in every state of every run, as equations
  between the records of the run and the operations on the agenda. `Does.accounts` is the step.
* `Accounts.nodup`, `Accounts.dependencies`, `Accounts.all_returned`, `Accounts.all_called`: what
  follows for one state.
* `run_ordered`: no function is called twice or before its dependencies have returned, the finish
  chain is emplaced once at most and at the end, and an acyclic graph is executed completely.
* `finishSignalled_iff`: the finish chain is available in every state with nothing left to execute exactly if
  the graph has a node. An empty graph never emplaces it (`not_finishSignalled`).
-/

namespace AsyncLib

namespace TaskGraphExecutor

open Sys Agenda

variable {g : TaskGraph} {sync : Bool}

/-- The accounts of a state with the agenda `A`. -/
structure Accounts (g : TaskGraph) (sh : Shared) (A : Multiset Op) : Prop where
  /-- A node is going to be called, or was called, once its counter is at its end. -/
  calls : ∀ k, sh.called.count k + A.count (.processReadyNodeIndex k) + A.count (.enqueueWork k) =
    if k < g.numNodes ∧ sh.mNodeCountInfo k ≤ 0 then 1 else 0
  returns : ∀ k, sh.called.count k = sh.returned.count k + A.count (.returnNode k)
  finishes : ∀ k, sh.returned.count k = sh.finished.count k + A.count (.decreaseTotal k)
  /-- A counter is decremented for each edge from a finished node. -/
  counters : ∀ j, sh.mNodeCountInfo j + g.released sh.finished j =
    g.getNumDependencies j + A.count (.decreaseCount j)
  bound : ∀ j, sh.mNodeCountInfo j ≤ g.getNumDependencies j
  total : sh.mTotalTaskCount + sh.finished.length = g.numNodes
  signals : A.count .emplaceFinish + sh.mFinishChain =
    if sh.finished.length = g.numNodes ∧ 0 < g.numNodes then 1 else 0

/-! ## One state -/

section State

variable {sh : Shared} {A : Multiset Op}

theorem Accounts.count_called_le (h : Accounts g sh A) (k : Nat) : sh.called.count k ≤ 1 := by
  have := h.calls k
  split at this <;> omega

theorem Accounts.nodup (h : Accounts g sh A) : sh.called.Nodup :=
  List.nodup_iff_count_le_one.mpr h.count_called_le

theorem Accounts.finished_nodup (h : Accounts g sh A) : sh.finished.Nodup := by
  refine List.nodup_iff_count_le_one.mpr fun k => ?_
  have h1 := h.count_called_le k
  have h2 := h.returns k
  have h3 := h.finishes k
  omega

theorem Accounts.called_lt (h : Accounts g sh A) {k : Nat} (hk : k ∈ sh.called) :
    k < g.numNodes ∧ sh.mNodeCountInfo k ≤ 0 := by
  have hpos := List.count_pos_iff.mpr hk
  have := h.calls k
  split at this
  · rename_i hc
    exact hc
  · omega

theorem Accounts.mem_returned (h : Accounts g sh A) {k : Nat} (hk : k ∈ sh.finished) :
    k ∈ sh.returned := by
  have hpos := List.count_pos_iff.mpr hk
  have := h.finishes k
  exact List.count_pos_iff.mp (by omega)

theorem Accounts.mem_called (h : Accounts g sh A) {k : Nat} (hk : k ∈ sh.returned) :
    k ∈ sh.called := by
  have hpos := List.count_pos_iff.mpr hk
  have := h.returns k
  exact List.count_pos_iff.mp (by omega)

theorem Accounts.finished_subset (h : Accounts g sh A) : sh.finished ⊆ List.range g.numNodes :=
  fun _ hi => List.mem_range.mpr (h.called_lt (h.mem_called (h.mem_returned hi))).1

/-- A counter at its end: every dependency has finished. -/
theorem Accounts.mem_finished (hb : g.Built) (h : Accounts g sh A) {i k : Nat}
    (hk : sh.mNodeCountInfo k ≤ 0) (hi : g.Edge i k) : i ∈ sh.finished := by
  by_contra hn
  have hlt := hb.released_lt h.finished_nodup hi hn
  have := h.counters k
  omega

/-- What a called node depends on has returned. -/
theorem Accounts.dependencies (hb : g.Built) (h : Accounts g sh A) {i k : Nat} (hk : k ∈ sh.called)
    (hi : i ∈ (g.node k).mDependencies) : i ∈ sh.returned :=
  h.mem_returned (h.mem_finished hb (h.called_lt hk).2 hi)

theorem Accounts.finish_le (h : Accounts g sh A) : sh.mFinishChain ≤ 1 := by
  have := h.signals
  split at this <;> omega

/-- The finish chain is available only when every function has returned. -/
theorem Accounts.all_returned (h : Accounts g sh A) (hf : sh.mFinishChain ≠ 0) {k : Nat}
    (hk : k < g.numNodes) : k ∈ sh.returned := by
  have hs := h.signals
  split at hs
  · rename_i hl
    have hperm : sh.finished.Perm (List.range g.numNodes) :=
      (h.finished_nodup.subperm h.finished_subset).perm_of_length_le
        (by rw [List.length_range, hl.1])
    exact h.mem_returned (hperm.mem_iff.mpr (List.mem_range.mpr hk))
  · omega

/-- A counter that is going to be decremented is above its end. -/
theorem Accounts.decreasing (hb : g.Built) (h : Accounts g sh A) {j : Nat}
    (hj : .decreaseCount j ∈ A) : j < g.numNodes ∧ 1 ≤ sh.mNodeCountInfo j := by
  have hpos := Multiset.count_pos.mpr hj
  have hcount := h.counters j
  have hbound := h.bound j
  have hle := hb.released_le h.finished_nodup j
  refine ⟨?_, by omega⟩
  by_contra hlt
  rw [TaskGraph.getNumDependencies_of_le (Nat.not_lt.mp hlt)] at hbound hle
  omega

/-- As long as a node is not accounted for, not all are. -/
theorem Accounts.length_lt (h : Accounts g sh A) {k : Nat} (hk : .decreaseTotal k ∈ A) :
    sh.finished.length < g.numNodes := by
  have hpos := Multiset.count_pos.mpr hk
  have h1 := h.count_called_le k
  have h2 := h.returns k
  have h3 := h.finishes k
  have hnot : k ∉ sh.finished := List.count_eq_zero.mp (by omega)
  have hmem : k ∈ sh.called := List.count_pos_iff.mp (by omega)
  have hsub : k :: sh.finished ⊆ List.range g.numNodes :=
    List.cons_subset.mpr ⟨List.mem_range.mpr (h.called_lt hmem).1, h.finished_subset⟩
  have := ((List.nodup_cons.mpr ⟨hnot, h.finished_nodup⟩).subperm hsub).length_le
  rw [List.length_cons, List.length_range] at this
  exact this

/-- The operations that execute nodes. -/
def Op.executes : Op → Bool
  | .processReadyNodeIndexs => false
  | .await => false
  | .dropRef => false
  | _ => true

/-- With no node to execute, the records agree. -/
theorem Accounts.idle (h : Accounts g sh A) (hA : ∀ op ∈ A, op.executes = false) (k : Nat) :
    sh.finished.count k = if k < g.numNodes ∧ sh.mNodeCountInfo k ≤ 0 then 1 else 0 := by
  have hz : ∀ op : Op, op.executes = true → A.count op = 0 := by
    intro op hop
    refine Multiset.count_eq_zero.mpr fun hm => ?_
    rw [hA op hm] at hop
    cases hop
  have h1 := h.calls k
  have h2 := h.returns k
  have h3 := h.finishes k
  rw [hz _ rfl] at h1 h2 h3
  rw [hz _ rfl] at h1
  omega

/-- With no node to execute, every node of an acyclic graph has finished. -/
theorem Accounts.all_finished (hb : g.Built) (ha : g.Acyclic) (h : Accounts g sh A)
    (hA : ∀ op ∈ A, op.executes = false) {k : Nat} (hk : k < g.numNodes) : k ∈ sh.finished := by
  refine hb.induction (P := fun k => k < g.numNodes → k ∈ sh.finished) ha (fun j ih hj => ?_) k hk
  have hcount := h.counters j
  have hpending : A.count (.decreaseCount j) = 0 :=
    Multiset.count_eq_zero.mpr fun hm => by cases hA _ hm
  have hrel := hb.released_eq h.finished_nodup fun i hi => ih i hi (hb.dependency_lt hi)
  have hidle := h.idle hA j
  rw [if_pos ⟨hj, by omega⟩] at hidle
  exact List.count_pos_iff.mp (by omega)

/-- Every function of an acyclic graph has been called once. -/
theorem Accounts.all_called (hb : g.Built) (ha : g.Acyclic) (h : Accounts g sh A)
    (hA : ∀ op ∈ A, op.executes = false) {k : Nat} (hk : k < g.numNodes) :
    sh.called.count k = 1 := by
  have hpos := List.count_pos_iff.mpr (h.mem_called (h.mem_returned (h.all_finished hb ha hA hk)))
  have hle := h.count_called_le k
  omega

end State

/-! ## The step -/

theorem count_map_op {c : Nat → Op} {op : Op} {ks : List Nat} :
    (ks.map c).count op = ks.countP fun k => decide (c k = op) := by
  rw [List.count_eq_countP, List.countP_map]
  rfl

section Step

variable {sh sh' : Shared} {old new : List Op} {R : Multiset Op}

theorem Does.calls (hb : g.Built) (hd : Does g sh old sh' new) (h : Accounts g sh (↑old + R))
    (x : Nat) : sh'.called.count x + (↑new + R).count (.processReadyNodeIndex x) +
      (↑new + R).count (.enqueueWork x) =
      if x < g.numNodes ∧ sh'.mNodeCountInfo x ≤ 0 then 1 else 0 := by
  have hx := h.calls x
  simp only [Multiset.count_add, Multiset.coe_count] at hx ⊢
  cases hd with
  | @readyCons k ks =>
    rw [← hx]
    simp only [List.count_append, List.count_cons, count_map_op, List.count_nil,
      Op.processReadyNodeIndex.injEq, Op.enqueueWork.injEq, reduceCtorEq, decide_false,
      List.countP_false, beq_iff_eq, if_false]
    omega
  | @enqueue k =>
    rw [← hx]
    simp only [taskFrame, Frame.ops, List.map_cons, List.map_nil, List.cons_append, List.nil_append,
      List.count_cons, List.count_nil, beq_iff_eq, Op.processReadyNodeIndex.injEq,
      Op.enqueueWork.injEq, reduceCtorEq, if_false]
    omega
  | @call k =>
    rw [← hx]
    simp only [List.count_cons, List.count_nil, beq_iff_eq, Op.processReadyNodeIndex.injEq,
      reduceCtorEq, if_false]
    omega
  | @decrease j =>
    obtain ⟨hj, hpos⟩ := h.decreasing hb (j := j) (by simp)
    have hnode : (if sh.mNodeCountInfo j = 1 then [Op.processReadyNodeIndex (g.mNodeIndexInfo j)]
        else []).count (.processReadyNodeIndex x) =
        if x = j ∧ sh.mNodeCountInfo j = 1 then 1 else 0 := by
      rw [hb.index hj]
      split
      · rename_i h1
        simp [h1, List.count_cons, @eq_comm _ j x]
      · rename_i h1
        simp [h1]
    have hqueue : (if sh.mNodeCountInfo j = 1 then [Op.processReadyNodeIndex (g.mNodeIndexInfo j)]
        else []).count (.enqueueWork x) = 0 := by
      split <;> simp
    rw [hnode, hqueue]
    simp only [List.count_cons, List.count_nil, beq_iff_eq, reduceCtorEq, if_false] at hx
    by_cases hxj : x = j
    · subst hxj
      rw [if_neg (by omega)] at hx
      simp only [Function.update_self, true_and]
      by_cases h1 : sh.mNodeCountInfo x = 1
      · rw [if_pos h1, if_pos ⟨hj, by omega⟩]
        omega
      · rw [if_neg h1, if_neg (by omega)]
        omega
    · simp only [Function.update_of_ne hxj, if_neg fun hc : x = j ∧ _ => hxj hc.1]
      omega
  | @total k =>
    rw [← hx]
    simp [count_map_op]
    split <;> simp
  | _ => simpa using hx

theorem Does.returns (hd : Does g sh old sh' new) (h : Accounts g sh (↑old + R)) (x : Nat) :
    sh'.called.count x = sh'.returned.count x + (↑new + R).count (.returnNode x) := by
  have hx := h.returns x
  simp only [Multiset.count_add, Multiset.coe_count] at hx ⊢
  cases hd with
  | @readyCons k ks => simpa [count_map_op] using hx
  | @enqueue k => simpa [taskFrame, Frame.ops] using hx
  | @call k =>
    simp only [List.count_cons, List.count_nil, beq_iff_eq, Op.returnNode.injEq, reduceCtorEq,
      if_false] at hx ⊢
    omega
  | @returned k =>
    simp only [List.count_cons, List.count_nil, beq_iff_eq, Op.returnNode.injEq, reduceCtorEq,
      if_false] at hx ⊢
    omega
  | @decrease j =>
    split <;> simpa using hx
  | @total k =>
    split <;> simpa [count_map_op] using hx
  | _ => simpa using hx

theorem Does.finishes (hd : Does g sh old sh' new) (h : Accounts g sh (↑old + R)) (x : Nat) :
    sh'.returned.count x = sh'.finished.count x + (↑new + R).count (.decreaseTotal x) := by
  have hx := h.finishes x
  simp only [Multiset.count_add, Multiset.coe_count] at hx ⊢
  cases hd with
  | @readyCons k ks => simpa [count_map_op] using hx
  | @enqueue k => simpa [taskFrame, Frame.ops] using hx
  | @returned k =>
    simp only [List.count_cons, List.count_nil, beq_iff_eq, Op.decreaseTotal.injEq, reduceCtorEq,
      if_false] at hx ⊢
    omega
  | @decrease j =>
    split <;> simpa using hx
  | @total k =>
    have hnew : ((g.node k).mSuccessories.map Op.decreaseCount ++
        if sh.mTotalTaskCount = 1 then [Op.emplaceFinish] else []).count (.decreaseTotal x) = 0 := by
      split <;> simp [count_map_op]
    rw [hnew]
    simp only [List.count_cons, List.count_nil, beq_iff_eq, Op.decreaseTotal.injEq] at hx ⊢
    omega
  | _ => simpa using hx

theorem Does.counters (hd : Does g sh old sh' new) (h : Accounts g sh (↑old + R)) (x : Nat) :
    sh'.mNodeCountInfo x + g.released sh'.finished x =
      g.getNumDependencies x + (↑new + R).count (.decreaseCount x) := by
  have hx := h.counters x
  simp only [Multiset.count_add, Multiset.coe_count] at hx ⊢
  cases hd with
  | @readyCons k ks => simpa [count_map_op] using hx
  | @enqueue k => simpa [taskFrame, Frame.ops] using hx
  | @decrease j =>
    have hnew : (if sh.mNodeCountInfo j = 1 then [Op.processReadyNodeIndex (g.mNodeIndexInfo j)]
        else []).count (.decreaseCount x) = 0 := by
      split <;> simp
    rw [hnew]
    by_cases hxj : x = j
    · subst hxj
      simp only [Function.update_self]
      simp only [List.count_cons_self, List.count_nil] at hx
      omega
    · simp only [Function.update_of_ne hxj]
      simpa [Ne.symm hxj] using hx
  | @total k =>
    have hnew : ((g.node k).mSuccessories.map Op.decreaseCount ++
        if sh.mTotalTaskCount = 1 then [Op.emplaceFinish] else []).count (.decreaseCount x) =
        (g.node k).mSuccessories.count x := by
      have hlast : (if sh.mTotalTaskCount = 1 then [Op.emplaceFinish] else []).count
          (.decreaseCount x) = 0 := by
        split <;> simp
      rw [List.count_append, hlast, count_map_op, List.count_eq_countP]
      simp [beq_eq_decide]
    rw [hnew]
    simp only [TaskGraph.released, List.map_cons, List.sum_cons, List.count_cons, List.count_nil,
      beq_iff_eq, reduceCtorEq, if_false] at hx ⊢
    omega
  | _ => simpa using hx

theorem Does.bound (hd : Does g sh old sh' new) (h : Accounts g sh (↑old + R)) (x : Nat) :
    sh'.mNodeCountInfo x ≤ g.getNumDependencies x := by
  have hx := h.bound x
  cases hd with
  | @decrease j =>
    by_cases hxj : x = j
    · subst hxj
      simp only [Function.update_self]
      omega
    · simpa only [Function.update_of_ne hxj] using hx
  | _ => exact hx

theorem Does.total_eq (hd : Does g sh old sh' new) (h : Accounts g sh (↑old + R)) :
    sh'.mTotalTaskCount + sh'.finished.length = g.numNodes := by
  have ht := h.total
  cases hd with
  | @total k =>
    simp only [List.length_cons]
    omega
  | _ => exact ht

theorem Does.signals (hd : Does g sh old sh' new) (h : Accounts g sh (↑old + R)) :
    (↑new + R).count .emplaceFinish + sh'.mFinishChain =
      if sh'.finished.length = g.numNodes ∧ 0 < g.numNodes then 1 else 0 := by
  have hx := h.signals
  simp only [Multiset.count_add, Multiset.coe_count] at hx ⊢
  cases hd with
  | @readyCons k ks => simpa [count_map_op] using hx
  | @enqueue k => simpa [taskFrame, Frame.ops] using hx
  | @decrease j =>
    split <;> simpa using hx
  | emplaceFinish =>
    simp only [List.count_cons_self, List.count_nil] at hx ⊢
    omega
  | @total k =>
    have ht := h.total
    have hlt := h.length_lt (k := k) (by simp)
    have hold : [Op.decreaseTotal k].count Op.emplaceFinish = 0 := by simp
    have hnew : ((g.node k).mSuccessories.map Op.decreaseCount ++
        if sh.mTotalTaskCount = 1 then [Op.emplaceFinish] else []).count .emplaceFinish =
        if sh.mTotalTaskCount = 1 then 1 else 0 := by
      have hdec : ((g.node k).mSuccessories.map Op.decreaseCount).count .emplaceFinish = 0 := by
        simp [count_map_op]
      rw [List.count_append, hdec]
      split <;> rfl
    rw [hold, if_neg fun hc => by omega] at hx
    simp only [hnew, List.length_cons]
    by_cases h1 : sh.mTotalTaskCount = 1
    · rw [if_pos h1, if_pos ⟨by omega, by omega⟩]
      omega
    · rw [if_neg h1, if_neg fun hc => by omega]
      omega
  | _ => simpa using hx

theorem Does.accounts (hb : g.Built) (hd : Does g sh old sh' new) (h : Accounts g sh (↑old + R)) :
    Accounts g sh' (↑new + R) where
  calls := hd.calls hb h
  returns := hd.returns h
  finishes := hd.finishes h
  counters := hd.counters h
  bound := hd.bound h
  total := hd.total_eq h
  signals := hd.signals h

end Step

/-! ## Runs -/

theorem startNodes_eq (hb : g.Built) :
    startNodes g = (List.range g.numNodes).filter fun k => g.getNumDependencies k = 0 := by
  refine (List.map_congr_left fun k hk => ?_).trans (List.map_id _)
  exact hb.index (List.mem_range.mp (List.mem_filter.mp hk).1)

/-- What is on the agenda at the start: the calls of the start nodes. -/
theorem count_running_init {op : Op} (hop : op.executes = true) :
    (init g sync).running.count op =
      (startNodes g).countP fun k => decide (.processReadyNodeIndex k = op) := by
  have hcode : (mainFrame g sync).code.count op = 0 := by
    refine List.count_eq_zero.mpr fun hm => ?_
    cases sync
    · simp only [mainFrame, Bool.false_eq_true, if_false, List.cons_append, List.nil_append,
        List.mem_cons, List.not_mem_nil, or_false] at hm
      rcases hm with rfl | rfl <;> cases hop
    · simp only [mainFrame, if_true, List.cons_append, List.nil_append, List.mem_cons,
        List.not_mem_nil, or_false] at hm
      rcases hm with rfl | rfl | rfl <;> cases hop
  have hrun : (init g sync).running = ↑((mainFrame g sync).ops) := by
    simp [St.running, init, pool]
  rw [hrun, Multiset.coe_count, Frame.ops, List.count_append, count_map_op, hcode]
  rfl

theorem count_start (k : Nat) :
    (init g sync).running.count (.processReadyNodeIndex k) = (startNodes g).count k := by
  rw [count_running_init rfl, List.count_eq_countP]
  simp only [Op.processReadyNodeIndex.injEq, beq_eq_decide]

theorem count_start_other {op : Op} (hop : op.executes = true)
    (hne : ∀ k, .processReadyNodeIndex k ≠ op) : (init g sync).running.count op = 0 := by
  rw [count_running_init hop, List.countP_eq_zero]
  intro k _
  simpa using hne k

theorem accounts_init (hb : g.Built) : Accounts g (init g sync).sh (init g sync).running where
  calls k := by
    rw [count_start, count_start_other rfl (by simp), startNodes_eq hb]
    have hcount : (init g sync).sh.mNodeCountInfo k = g.getNumDependencies k := by
      simp [init, hb.count]
    rw [hcount]
    simp only [init, List.count_nil]
    split
    · rename_i hk
      rw [List.count_eq_one_of_mem (List.nodup_range.filter _)]
      refine List.mem_filter.mpr ⟨List.mem_range.mpr hk.1, ?_⟩
      simp only [decide_eq_true_eq]
      omega
    · rename_i hk
      rw [List.count_eq_zero.mpr]
      intro hm
      obtain ⟨h1, h2⟩ := List.mem_filter.mp hm
      simp only [decide_eq_true_eq] at h2
      exact hk ⟨List.mem_range.mp h1, by omega⟩
  returns k := by
    rw [count_start_other rfl (by simp)]
    simp [init]
  finishes k := by
    rw [count_start_other rfl (by simp)]
    simp [init]
  counters j := by
    rw [count_start_other rfl (by simp)]
    simp [init, hb.count, TaskGraph.released]
  bound j := by simp [init, hb.count]
  total := by simp [init]
  signals := by
    rw [count_start_other rfl (by simp), if_neg (by simp [init]; omega)]
    rfl

/-- The accounts hold in every state of every run. -/
theorem accounts_reach (hb : g.Built) {s : St} (hs : (sys g sync).Reach Any s) :
    Accounts g s.sh s.running := by
  refine hs.invariant (I := fun s => Accounts g s.sh s.running) ?_ ?_
  · rintro s rfl
    exact accounts_init hb
  · intro s l s' h _ hn
    obtain ⟨old, new, R, hd, h1, h2⟩ := step_does hn
    rw [h1] at h
    rw [h2]
    exact hd.accounts hb h

/-- No node function is running, queued or in a ready list, and none is accounted for. -/
def St.Idle (s : St) : Prop :=
  s.queue = [] ∧ ∀ stack ∈ s.threads, ∀ f ∈ stack, f.ready = [] ∧ ∀ op ∈ f.code, op.executes = false

instance (s : St) : Decidable s.Idle := inferInstanceAs (Decidable (_ ∧ _))

theorem St.Idle.running {s : St} (h : s.Idle) : ∀ op ∈ s.running, op.executes = false := by
  intro op hop
  rw [St.running, pool, h.1] at hop
  simp only [List.flatMap_nil, Multiset.coe_nil, zero_add, Multiset.mem_coe, List.mem_flatMap] at hop
  obtain ⟨stack, hstack, f, hf, hop⟩ := hop
  obtain ⟨hready, hcode⟩ := h.2 stack hstack f hf
  rw [Frame.ops, hready] at hop
  exact hcode op hop

/-- The run of every graph calls each function at most once and after its dependencies, signals at
the end, and calls every function of an acyclic graph. -/
theorem run_ordered (edits : List TaskGraph.Edit) (sync : Bool) {s : St}
    (hs : (sys (.build edits) sync).Reach Any s) :
    s.sh.called.Nodup ∧
    (∀ k ∈ s.sh.called, ∀ i ∈ ((TaskGraph.build edits).node k).mDependencies, i ∈ s.sh.returned) ∧
    s.sh.mFinishChain ≤ 1 ∧
    (s.sh.mFinishChain ≠ 0 → ∀ k < (TaskGraph.build edits).numNodes, k ∈ s.sh.returned) ∧
    ((TaskGraph.build edits).Acyclic → s.Idle →
      ∀ k < (TaskGraph.build edits).numNodes, s.sh.called.count k = 1) := by
  have hb := TaskGraph.built_build edits
  have h := accounts_reach hb hs
  refine ⟨h.nodup, fun k hk i hi => h.dependencies hb hk hi, h.finish_le, ?_, ?_⟩
  · intro hf k hk
    exact h.all_returned hf hk
  · intro ha hi k hk
    exact h.all_called hb ha hi.running hk

/-! ## A run -/

/-- Two nodes and two edges from the first to the second. -/
def pairEdits : List TaskGraph.Edit :=
  [.emplace, .emplace, .addDependency 1 0, .addSuccessor 0 1]

theorem acyclic_of_lt {g : TaskGraph} (h : ∀ k j, g.Edge k j → k < j) : g.Acyclic := by
  intro k hk
  have hlt : ∀ j, Relation.TransGen g.Edge k j → k < j := by
    intro j hj
    induction hj with
    | single he => exact h _ _ he
    | tail _ he ih => exact ih.trans (h _ _ he)
  exact Nat.lt_irrefl k (hlt k hk)

theorem acyclic_pair : (TaskGraph.build pairEdits).Acyclic := by
  refine acyclic_of_lt fun k j hk => ?_
  match j with
  | 0 => cases hk
  | 1 =>
    have : k ∈ [0, 0] := hk
    simp_all
  | j + 2 => cases hk

/-- The calling thread executes the whole graph. -/
theorem run_ordered_pair : ∃ s, runLabels (step (.build pairEdits)) (init (.build pairEdits) true)
    (List.replicate 14 (.run 0 false)) = some s ∧ s.Idle ∧ s.sh.mFinishChain = 1 ∧
    s.sh.called.count 1 = 1 := by
  refine ⟨_, rfl, by decide, rfl, ?_⟩
  have hr := reach_runLabels (fun _ => True) (Reach.init (S := sys (.build pairEdits) true) rfl)
    (List.replicate 14 (.run 0 false)) (fun _ _ => trivial) rfl
  exact (run_ordered pairEdits true hr).2.2.2.2 acyclic_pair (by decide) 1 (by decide)

/-! ## The finish chain -/

/-- When no node is left to execute, the finish chain is available, and `Await` returns. -/
def FinishSignalled (g : TaskGraph) : Prop :=
  ∀ sync s, (sys g sync).Reach Any s → s.Idle → s.sh.mFinishChain ≠ 0

/-- A graph without nodes has nothing to execute and never emplaces the finish chain. -/
theorem idle_init (h : g.numNodes = 0) : (init g sync).Idle := by
  have hstart : startNodes g = [] := by simp [startNodes, h]
  refine ⟨rfl, ?_⟩
  cases sync
  · simp [init, mainFrame, hstart, Op.executes]
  · simp [init, mainFrame, hstart, Op.executes]

theorem finishSignalled_iff (edits : List TaskGraph.Edit) (ha : (TaskGraph.build edits).Acyclic) :
    FinishSignalled (.build edits) ↔ (TaskGraph.build edits).numNodes ≠ 0 := by
  have hb := TaskGraph.built_build edits
  constructor
  · intro h hn
    exact h true _ (.init rfl) (idle_init hn) rfl
  · intro hn sync s hs hidle
    have h := accounts_reach hb hs
    have hlen : s.sh.finished.length = (TaskGraph.build edits).numNodes := by
      have hsub : List.range (TaskGraph.build edits).numNodes ⊆ s.sh.finished := fun k hk =>
        h.all_finished hb ha hidle.running (List.mem_range.mp hk)
      have hle := (List.nodup_range.subperm hsub).length_le
      have hge := (h.finished_nodup.subperm h.finished_subset).length_le
      rw [List.length_range] at hle hge
      exact Nat.le_antisymm hge hle
    have hpending : s.running.count .emplaceFinish = 0 :=
      Multiset.count_eq_zero.mpr fun hm => by cases hidle.running _ hm
    have hsig := h.signals
    rw [hpending, if_pos ⟨hlen, Nat.pos_of_ne_zero hn⟩] at hsig
    omega

theorem finishSignalled_pair : FinishSignalled (.build pairEdits) :=
  (finishSignalled_iff pairEdits acyclic_pair).mpr (by decide)

/-- `RunTaskGraph` of a graph without nodes waits forever. -/
theorem not_finishSignalled : ¬ ∀ edits, (TaskGraph.build edits).Acyclic →
    FinishSignalled (.build edits) := by
  intro h
  have hempty : (TaskGraph.build []).Acyclic := acyclic_of_lt fun k j hk => by cases hk
  exact h [] hempty true _ (.init rfl) (idle_init rfl) rfl

end TaskGraphExecutor

end AsyncLib
