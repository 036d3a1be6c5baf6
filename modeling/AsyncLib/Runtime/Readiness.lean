import AsyncLib.Runtime.Runs

/-!
# Ready counters

In a well-formed graph the counter of a kernel is the number of decrements that are still to come,
so a kernel is processed when all its arguments are there.

* `Op.decrements`: the decrements of a kernel's counter that an operation leads to. `due`: all that
  are still to come. `Does.debt`: a step changes the counter and `due` alike.
* `Op.Sound`, `Waiter.Sound`: what holds of an operation under way and of a closure that waits: a
  value that is stored into a register with consumers is available, a closure waits for the value it
  is about, and a kernel reads registers that hold available values.
* `Ready`: the invariant, for runs whose first argument is available if some kernel reads it.
-/

namespace AsyncLib

namespace GraphExecutor

open AsyncValue Sys Agenda

variable {F V E : Type} {g : AsyncGraph F} {start : Nat}

/-! ## Decrements -/

/-- How many results of kernel `k` the kernel `n` reads. -/
def feeds (g : AsyncGraph F) (n k : Nat) : Nat :=
  ((List.range (g.numResults k)).map fun j => (g.getNextUsedBys k j).count n).sum

/-- The decrements of the counter of kernel `n` that an operation leads to. -/
def Op.decrements (g : AsyncGraph F) (start : Nat) : Op → Nat → Nat
  | .pseudoKernel j => fun n => (g.getNextUsedBys start j).count n
  | .pseudoAndThen j _ => fun n => (g.getNextUsedBys start j).count n
  | .decreaseReadyCounts k j => fun n => (g.getNextUsedBys k j).count n
  | .decreaseReadyCount u => Pi.single u 1
  | .addArgs k _ _ _ => fun n => feeds g n k
  | .installIndirect _ _ (.addArg k _ _ _) => fun n => feeds g n k
  | .callKernel k _ _ => fun n => feeds g n k
  | .processUsedBy k j _ => fun n => (g.getNextUsedBys k j).count n
  | .andThen k j _ => fun n => (g.getNextUsedBys k j).count n
  | .setAsyncValuePtr k j _ => fun n => (g.getNextUsedBys k j).count n
  | .casAsyncValuePtr k j _ => fun n => (g.getNextUsedBys k j).count n
  | .forwardExisting k j _ _ => fun n => (g.getNextUsedBys k j).count n
  | _ => 0

/-- What kernel `k` will decrement, if it is not the start node. -/
def feedsOf (g : AsyncGraph F) (start n k : Nat) : Nat := if k = start then 0 else feeds g n k

/-- The decrements of the counter of kernel `n` that are still to come. -/
def due (g : AsyncGraph F) (start : Nat) (sh : Shared V E) (A : Multiset Op) (n : Nat) : Nat :=
  unlogged g sh.log (feedsOf g start n) + weight (Op.decrements g start) A n

/-- The counter of kernel `n` less the decrements to come from `l` and from kernels not processed. -/
def debt (g : AsyncGraph F) (start : Nat) (sh : Shared V E) (l : List Op) (n : Nat) : Int :=
  sh.mArgumentsNotReady n -
    ↑(unlogged g sh.log (feedsOf g start n) + (l.map fun op => op.decrements g start n).sum)

section Debt

variable {sh sh' : Shared V E} {R : Multiset Op} {old new net : List Op} {n : Nat}

theorem debt_congr (h1 : sh'.mArgumentsNotReady n = sh.mArgumentsNotReady n)
    (h2 : sh'.log = sh.log) (h3 : (net.map fun op => op.decrements g start n).sum =
      (old.map fun op => op.decrements g start n).sum) :
    debt g start sh' net n = debt g start sh old n := by
  unfold debt
  rw [h1, h2, h3]

theorem decrements_resume (c : Cont) (q : Nat) (ind v : Addr) :
    ((c.resume sh v).2.map fun op => op.decrements g start n).sum =
      (Op.installIndirect q ind c).decrements g start n := by
  cases c <;> rfl

theorem decrements_op (c : Cont) (q : Nat) (ind : Addr) :
    (c.op q).decrements g start n = (Op.installIndirect q ind c).decrements g start n := by
  cases c <;> rfl

theorem decrements_afterCall {k : Nat} {args outs : List Addr} (hl : outs.length = g.numResults k) :
    ((afterCall k args outs).map fun op => op.decrements g start n).sum = feeds g n k := by
  rw [afterCall, List.map_append, List.sum_append, List.map_map, List.map_map]
  have h0 : (args.map ((fun op => op.decrements g start n) ∘ Op.dropRef)).sum = 0 := by
    simp [Function.comp_def, Op.decrements]
  have h1 : outs.zipIdx.map ((fun op => op.decrements g start n) ∘ fun p : Addr × Nat =>
      Op.processUsedBy k p.2 p.1) =
      (outs.zipIdx.map Prod.snd).map fun j => (g.getNextUsedBys k j).count n := by
    rw [List.map_map]
    rfl
  rw [h0, Nat.zero_add, h1, List.zipIdx_map_snd, feeds, ← hl, List.range_eq_range']

theorem decrements_pendingForward (h : Heap V E Closure) (i v : Addr) :
    ((pendingForward h i v).map fun op => op.decrements g start n).sum = 0 := by
  unfold pendingForward
  split <;> rfl

/-- An output register has no users. -/
theorem users_eq_nil (hw : g.Wired start) {k j : Nat} (hj : j < g.numResults k)
    (hu : g.userCount (g.resultReg k j) = 0) : g.getNextUsedBys k j = [] := by
  by_contra hne
  obtain ⟨u, hmem⟩ := List.exists_mem_of_ne_nil _ hne
  have hread := (hw.mem_users hj u).mp hmem
  have hlt : u < g.numKernels := by
    by_contra hn
    have : g.argumentsIdx u = [] := by
      rw [AsyncGraph.argumentsIdx, List.getElem?_eq_none (Nat.le_of_not_lt hn)]
      rfl
    rw [this] at hread
    cases hread
  have hle : (g.argumentsIdx u).count (g.resultReg k j) ≤ g.reads (g.resultReg k j) :=
    Finset.single_le_sum (f := fun m => (g.argumentsIdx m).count (g.resultReg k j))
      (fun _ _ => Nat.zero_le _) (Finset.mem_range.mpr hlt)
  rw [← hw.userCount_eq (hw.reg_lt hj), hu] at hle
  have := List.count_pos_iff.mpr hread
  omega

/-- A step changes the counter and the decrements to come alike. -/
theorem Does.debt (hw : g.Wired start) (hd : Does g start sh old sh' new net)
    (hf : Flow g start sh (↑old + R)) (n : Nat) :
    GraphExecutor.debt g start sh' net n = GraphExecutor.debt g start sh old n := by
  have hvalid : ∀ op ∈ old, op.Valid g start := fun op h => hf.valid op (by simp [h])
  cases hd with
  | @pseudoUnused j hj hu =>
    have hlt : j < g.numResults start := hvalid (.pseudoKernel j) (by simp)
    have hnil : g.getNextUsedBys start j = [] := by
      rcases hu with hu | hu
      · exact users_eq_nil hw hlt hu
      · exact hu
    exact debt_congr rfl rfl (by simp [Op.decrements, hnil])
  | @decreaseAll k j =>
    refine debt_congr rfl rfl ?_
    rw [List.map_map, List.map_singleton, List.sum_singleton]
    exact sum_map_single (g.getNextUsedBys k j) n
  | @decrease u =>
    have h0 : ((if sh.mArgumentsNotReady u = 1 then [Op.processReadyKernel u] else []).map
        fun op => op.decrements g start n).sum = 0 := by
      split <;> rfl
    have h1 : ([Op.decreaseReadyCount u].map fun op => op.decrements g start n).sum =
        if n = u then 1 else 0 := by
      simp [Op.decrements, Pi.single_apply]
    simp only [GraphExecutor.debt, h0, h1, Function.update_apply]
    by_cases hn : n = u
    · rw [if_pos hn, if_pos hn, hn]
      omega
    · rw [if_neg hn, if_neg hn]
  | readyCons =>
    refine debt_congr rfl rfl ?_
    simp [Op.decrements, Function.comp_def]
  | @process k =>
    obtain ⟨⟨h1, h2⟩, h3, -⟩ := hf.fresh (k := k) (by simp)
    unfold GraphExecutor.debt
    rw [unlogged_cons h2 h3 (feedsOf g start n), feedsOf, if_neg h1]
    simp only [List.map_singleton, List.sum_singleton, Op.decrements, Pi.zero_apply]
    omega
  | @load q c v hc hp =>
    obtain ⟨h1, -, h3, -⟩ := c.resume_fields sh v
    refine debt_congr (congrFun h3 n) h1 ?_
    rw [decrements_resume c q 0, List.map_singleton, List.sum_singleton, decrements_op c q 0]
  | @make q c hc hp =>
    refine debt_congr rfl rfl ?_
    rw [List.map_singleton, List.sum_singleton, List.map_singleton, List.sum_singleton,
      decrements_op c q sh.heap.next]
  | @install q ind c hp =>
    obtain ⟨h1, -, h3, -⟩ :=
      c.resume_fields { sh with regs := Function.update sh.regs q (.installed ind) } ind
    refine debt_congr (congrFun h3 n) h1 ?_
    rw [decrements_resume c q ind, List.map_singleton, List.sum_singleton]
  | @discard q ind v c hp =>
    obtain ⟨h1, -, h3, -⟩ :=
      c.resume_fields { sh with heap := sh.heap.dropRef ind (g.userCount q + 1) } v
    refine debt_congr (congrFun h3 n) h1 ?_
    rw [decrements_resume c q ind, List.map_singleton, List.sum_singleton]
  | callError =>
    refine debt_congr rfl rfl ?_
    rw [decrements_afterCall List.length_replicate]
    rfl
  | call ho hl hb =>
    refine debt_congr rfl rfl ?_
    rw [decrements_afterCall hl]
    rfl
  | forwardExisting =>
    refine debt_congr rfl rfl ?_
    rw [List.map_append, List.sum_append, decrements_pendingForward, Nat.zero_add]
    rfl
  | forwardTo =>
    refine debt_congr rfl rfl ?_
    rw [List.map_append, List.sum_append, decrements_pendingForward]
    rfl
  | resolveIndirect =>
    refine debt_congr rfl rfl ?_
    rw [List.map_append, List.sum_append, decrements_pendingForward]
    rfl
  | _ => exact debt_congr rfl rfl rfl

end Debt

/-! ## What holds of operations and closures -/

/-- The registers that kernel `k` reads hold available values. -/
def ArgsReady (g : AsyncGraph F) (sh : Shared V E) (k : Nat) : Prop :=
  ∀ r ∈ g.argumentsIdx k, ∃ a, sh.regs r = .direct a ∧ sh.heap.isAvailable a = true

/-- `errorArguments` after the arguments `args`: the last one that is an error. -/
def errorArguments (h : Heap V E Closure) (args : List Addr) : Option Addr :=
  (args.filter h.isError).getLast?

/-- Kernel `k` has read `args`, and the registers `todo` are left. -/
structure Reading (g : AsyncGraph F) (sh : Shared V E) (k : Nat) (todo : List Nat)
    (args : List Addr) (err : Option Addr) : Prop where
  ready : ArgsReady g sh k
  loaded : ∃ done, g.argumentsIdx k = done ++ todo ∧
    List.Forall₂ (fun r a => sh.regs r = .direct a) done args
  error : err = errorArguments sh.heap args

/-- What holds of an operation under way. -/
def Op.Sound (g : AsyncGraph F) (start : Nat) (sh : Shared V E) : Op → Prop
  | .pseudoAndThen j a => sh.regs (g.resultReg start j) = .direct a
  | .addArgs k todo args err => Reading g sh k todo args err
  | .installIndirect _ _ (.addArg _ _ _ _) => False
  | .callKernel k args err => Reading g sh k [] args err
  | .processUsedBy _ _ v => v ∈ sh.returned ∨ sh.heap.isAvailable v = true
  | .andThen _ _ v => v ∈ sh.returned ∨ sh.heap.isAvailable v = true
  | .setAsyncValuePtr k j v => g.getNextUsedBys k j ≠ [] → sh.heap.isAvailable v = true
  | .casAsyncValuePtr k j v => g.getNextUsedBys k j ≠ [] → sh.heap.isAvailable v = true
  | .forwardExisting k j _ v => g.getNextUsedBys k j ≠ [] → sh.heap.isAvailable v = true
  | _ => True

/-- What holds of a closure that waits for `a`. -/
def Waits (g : AsyncGraph F) (start : Nat) (sh : Shared V E) (a : Addr) : Waiter Closure → Prop
  | .forward _ _ => True
  | .client (.setAndDecrease _ _ v) => v = a ∧ v ∈ sh.returned
  | .client (.decrease j) => sh.regs (g.resultReg start j) = .direct a

section Sound

variable {sh sh' : Shared V E}

theorem ArgsReady.unique {k r : Nat} {a : Addr} (h : ArgsReady g sh k) (hr : r ∈ g.argumentsIdx k)
    (ha : sh.regs r = .direct a) : sh.heap.isAvailable a = true := by
  obtain ⟨b, hb, hv⟩ := h r hr
  rw [ha] at hb
  cases hb
  exact hv

/-- The arguments that were read are available. -/
theorem Reading.available {k : Nat} {todo : List Nat} {args : List Addr} {err : Option Addr}
    (h : Reading g sh k todo args err) : ∀ a ∈ args, ∃ r ∈ g.argumentsIdx k,
      sh.regs r = .direct a ∧ sh.heap.isAvailable a = true := by
  intro a ha
  obtain ⟨done, hd, hl⟩ := h.loaded
  obtain ⟨i, hi, rfl⟩ := List.mem_iff_getElem.mp ha
  have hlen := hl.length_eq
  have hreg := (List.forall₂_iff_get.mp hl).2 i (by omega) hi
  refine ⟨done[i], ?_, hreg, h.ready.unique ?_ hreg⟩
  · rw [hd]
    exact List.mem_append_left _ (List.getElem_mem _)
  · rw [hd]
    exact List.mem_append_left _ (List.getElem_mem _)

/-- One more argument. -/
theorem Reading.load {k r : Nat} {todo : List Nat} {args : List Addr} {err : Option Addr} {v : Addr}
    (h : Reading g sh k (r :: todo) args err) (hp : (sh.regs r).ptr = some v) :
    Reading g sh k todo (args ++ [v]) (if sh.heap.isError v then some v else err) where
  ready := h.ready
  loaded := by
    obtain ⟨done, hd, hl⟩ := h.loaded
    obtain ⟨a, ha, -⟩ := h.ready r (by rw [hd]; simp)
    rw [ha] at hp
    cases hp
    refine ⟨done ++ [r], by rw [hd, List.append_assoc]; rfl, ?_⟩
    exact List.rel_append hl (.cons ha .nil)
  error := by
    rw [h.error]
    unfold errorArguments
    rw [List.filter_append]
    cases hv : sh.heap.isError v <;> simp [hv]

/-- `sh'` is a later state of the registers, the heap and the returned values. -/
structure Later (sh sh' : Shared V E) : Prop where
  heap : sh.heap.Grows sh'.heap
  regs : ∀ r, (sh.regs r).Step (sh'.regs r)
  returned : ∀ a ∈ sh.returned, a ∈ sh'.returned
  bound : ∀ r a, (sh.regs r).ptr = some a → a < sh.heap.next

theorem Later.direct (hl : Later sh sh') {r : Nat} {a : Addr} (h : sh.regs r = .direct a) :
    sh'.regs r = .direct a := (hl.regs r).direct h

theorem Later.argsReady (hl : Later sh sh') {k : Nat} (h : ArgsReady g sh k) :
    ArgsReady g sh' k := by
  intro r hr
  obtain ⟨a, ha, hv⟩ := h r hr
  exact ⟨a, hl.direct ha, hl.heap.isAvailable (hl.bound r a (by rw [ha]; rfl)) hv⟩

theorem Later.reading (hl : Later sh sh') {k : Nat} {todo : List Nat} {args : List Addr}
    {err : Option Addr} (h : Reading g sh k todo args err) : Reading g sh' k todo args err where
  ready := hl.argsReady h.ready
  loaded := by
    obtain ⟨done, hd, hf⟩ := h.loaded
    exact ⟨done, hd, hf.imp fun _ _ ha => hl.direct ha⟩
  error := by
    rw [h.error]
    unfold errorArguments
    refine congrArg List.getLast? (List.filter_congr fun a ha => ?_)
    obtain ⟨r, -, hr, hv⟩ := h.available a ha
    unfold Heap.isError
    rw [hl.heap.state a (hl.bound r a (by rw [hr]; rfl)) hv]

theorem Later.sound (hl : Later sh sh') {op : Op} (hop : ∀ a, 0 < op.refs g a → a < sh.heap.next)
    (h : op.Sound g start sh) : op.Sound g start sh' := by
  have hkeep : ∀ v, 0 < op.refs g v → (v ∈ sh.returned ∨ sh.heap.isAvailable v = true) →
      v ∈ sh'.returned ∨ sh'.heap.isAvailable v = true := fun v hv hor =>
    hor.imp (hl.returned v) (hl.heap.isAvailable (hop v hv))
  cases op with
  | pseudoAndThen j a => exact hl.direct h
  | addArgs k todo args err => exact hl.reading h
  | installIndirect r ind c =>
    cases c with
    | addArg => exact h.elim
    | takeResult => trivial
  | callKernel k args err => exact hl.reading h
  | processUsedBy k j v => exact hkeep v (by simp [Op.refs]) h
  | andThen k j v => exact hkeep v (by simp [Op.refs]) h
  | setAsyncValuePtr k j v =>
    exact fun hu => hl.heap.isAvailable (hop v (by simp [Op.refs])) (h hu)
  | casAsyncValuePtr k j v =>
    exact fun hu => hl.heap.isAvailable (hop v (by simp [Op.refs])) (h hu)
  | forwardExisting k j i v =>
    exact fun hu => hl.heap.isAvailable (hop v (by simp [Op.refs])) (h hu)
  | _ => trivial

theorem Later.waits (hl : Later sh sh') {a : Addr} {w : Waiter Closure} (h : Waits g start sh a w) :
    Waits g start sh' a w := by
  match w with
  | .forward _ _ => trivial
  | .client (.setAndDecrease _ _ v) => exact ⟨h.1, hl.returned v h.2⟩
  | .client (.decrease j) => exact hl.direct h

/-- A closure that runs finds its value available. -/
theorem Waits.sound {a : Addr} {w : Waiter Closure} (h : Waits g start sh a w)
    (ha : sh'.heap.isAvailable a = true) : ∀ op ∈ waiterCode start w, op.Sound g start sh' := by
  intro op hop
  match w with
  | .forward i v =>
    cases List.mem_singleton.mp hop
    trivial
  | .client (.setAndDecrease k j v) =>
    simp only [waiterCode, List.mem_cons, List.not_mem_nil, or_false] at hop
    rcases hop with rfl | rfl | rfl
    · intro _
      rw [h.1]
      exact ha
    · trivial
    · trivial
  | .client (.decrease j) =>
    simp only [waiterCode, List.mem_cons, List.not_mem_nil, or_false] at hop
    rcases hop with rfl | rfl | rfl <;> trivial

end Sound

/-! ## The invariant -/

/-- Whether the users of the result `j` of the start node are decremented is still open. -/
def Undecided (sh : Shared V E) (B : Multiset Op) (j : Nat) : Prop :=
  .pseudoKernel j ∈ B ∨ (∃ a, .pseudoAndThen j a ∈ B) ∨
    ∃ a, a < sh.heap.next ∧ .client (.decrease j) ∈ (sh.heap.cell a).waiters

/-- The counters count the arguments that are still due, and what was counted is available. -/
structure Ready (g : AsyncGraph F) (start : Nat) (sh : Shared V E) (B : Multiset Op) : Prop where
  counter : ∀ n, Runs g start n →
    sh.mArgumentsNotReady n = ↑(due g start sh (B + waitingOps start sh.heap) n)
  ops : ∀ op ∈ B, op.Sound g start sh
  waiters : ∀ a, ∀ w ∈ (sh.heap.cell a).waiters, Waits g start sh a w
  consumed : ∀ r, g.userCount r ≠ 0 → sh.regs r = .empty ∨
    ∃ v, sh.regs r = .direct v ∧ (r ∈ g.resultsIndex start ∨ sh.heap.isAvailable v = true)
  starts : ∀ j, j < g.numResults start → g.getNextUsedBys start j ≠ [] →
    ∀ a, sh.regs (g.resultReg start j) = .direct a →
      sh.heap.isAvailable a = true ∨ (j ≠ 0 ∧ Undecided sh B j)

section Ready

variable {handles : Addr → Nat} {sh sh' : Shared V E} {A B R Q : Multiset Op}
  {old new net : List Op}

theorem mem_resultsIndex {k r : Nat} : r ∈ g.resultsIndex k ↔
    ∃ j, j < g.numResults k ∧ g.resultReg k j = r := by
  rw [List.mem_iff_getElem]
  constructor
  · rintro ⟨j, hj, he⟩
    exact ⟨j, hj, by rw [AsyncGraph.resultReg, List.getD_eq_getElem _ _ hj, he]⟩
  · rintro ⟨j, hj, he⟩
    refine ⟨j, hj, ?_⟩
    rw [← he, AsyncGraph.resultReg, List.getD_eq_getElem _ _ hj]

theorem kernel_lt {k j : Nat} (hj : j < g.numResults k) : k < g.numKernels := by
  by_contra hn
  rw [AsyncGraph.numResults, AsyncGraph.resultsIndex,
    List.getElem?_eq_none (Nat.le_of_not_lt hn)] at hj
  exact Nat.not_lt_zero _ hj

theorem le_feeds {n k j : Nat} (hj : j < g.numResults k) :
    (g.getNextUsedBys k j).count n ≤ feeds g n k :=
  List.single_le_sum (fun _ _ => Nat.zero_le _) _
    (List.mem_map.mpr ⟨j, List.mem_range.mpr hj, rfl⟩)

theorem produces_eq (hw : g.Wired start) {k j : Nat} (hj : j < g.numResults k) :
    produces g (g.resultReg k j) = 1 := by
  have h1 : 0 < (g.resultsIndex k).count (g.resultReg k j) :=
    List.count_pos_iff.mpr (mem_resultsIndex.mpr ⟨j, hj, rfl⟩)
  have h2 : (g.resultsIndex k).count (g.resultReg k j) ≤ produces g (g.resultReg k j) :=
    Finset.single_le_sum (f := fun k' => (g.resultsIndex k').count (g.resultReg k j))
      (fun _ _ => Nat.zero_le _) (Finset.mem_range.mpr (kernel_lt hj))
  have h3 := produces_le hw (g.resultReg k j)
  omega

/-- An operation that is going to deliver a register is going to decrement its users. -/
theorem decrements_of_delivery (hw : g.Wired start) {op : Op} (hv : op.Valid g start) {k j n : Nat}
    (hj : j < g.numResults k) (hd : 0 < op.delivery g (g.resultReg k j))
    (hn : n ∈ g.getNextUsedBys k j) : 0 < op.decrements g start n := by
  have hpos := List.count_pos_iff.mpr hn
  have hkernel : ∀ k', 0 < (g.resultsIndex k').count (g.resultReg k j) → 0 < feeds g n k' := by
    intro k' hc
    obtain ⟨j', hj', he⟩ := mem_resultsIndex.mp (List.count_pos_iff.mp hc)
    obtain ⟨rfl, rfl⟩ := hw.reg_inj hj' hj he
    exact Nat.lt_of_lt_of_le hpos (le_feeds hj)
  have hresult : ∀ k' j', j' < g.numResults k' →
      0 < (Pi.single (g.resultReg k' j') 1 : Nat → Nat) (g.resultReg k j) →
      0 < (g.getNextUsedBys k' j').count n := by
    intro k' j' hj' hs
    rw [Pi.single_apply] at hs
    split at hs
    · rename_i he
      obtain ⟨rfl, rfl⟩ := hw.reg_inj hj' hj he.symm
      exact hpos
    · exact absurd hs (Nat.lt_irrefl 0)
  cases op with
  | addArgs k' => exact hkernel k' hd
  | installIndirect r ind c =>
    cases c with
    | addArg k' => exact hkernel k' hd
    | takeResult => exact absurd hd (Nat.lt_irrefl 0)
  | callKernel k' => exact hkernel k' hd
  | processUsedBy k' j' v => exact hresult k' j' hv.2 hd
  | andThen k' j' v => exact hresult k' j' hv.2 hd
  | setAsyncValuePtr k' j' v => exact hresult k' j' hv.2 hd
  | casAsyncValuePtr k' j' v => exact hresult k' j' hv.2 hd
  | forwardExisting k' j' i v => exact hresult k' j' hv.2 hd
  | _ => exact absurd hd (Nat.lt_irrefl 0)

/-- What is undecided is still to come. -/
theorem Undecided.due {j n : Nat} (h : Undecided sh B j) (hn : n ∈ g.getNextUsedBys start j) :
    0 < due g start sh (B + waitingOps start sh.heap) n := by
  have hpos := List.count_pos_iff.mpr hn
  have hop : ∃ op ∈ B + waitingOps start sh.heap, 0 < op.decrements g start n := by
    rcases h with h | ⟨a, h⟩ | ⟨a, hlt, h⟩
    · exact ⟨_, Multiset.mem_add.mpr (.inl h), hpos⟩
    · exact ⟨_, Multiset.mem_add.mpr (.inl h), hpos⟩
    · refine ⟨.decreaseReadyCounts start j, Multiset.mem_add.mpr (.inr ?_), hpos⟩
      exact mem_waitingOps.mpr ⟨a, hlt, _, h, by simp [waiterCode]⟩
  obtain ⟨op, hmem, hd⟩ := hop
  have := le_weight (Op.decrements g start) n hmem
  unfold GraphExecutor.due
  omega

/-- A register whose producer has nothing left to do was delivered. -/
theorem delivered_of_due (hw : g.Wired start)
    (hf : Flow g start sh A) {k j n : Nat} (hk : k ≠ start)
    (hj : j < g.numResults k) (hn : n ∈ g.getNextUsedBys k j) (h0 : due g start sh A n = 0) :
    (sh.regs (g.resultReg k j)).delivered ≠ none := by
  have hzero : deliveries g start sh A (g.resultReg k j) = 0 := by
    refine Nat.add_eq_zero_iff.mpr ⟨?_, ?_⟩
    · refine Finset.sum_eq_zero fun k' hk' => ?_
      obtain ⟨hlt, hlog⟩ := Finset.mem_filter.mp hk'
      rw [resultsOf]
      split
      · rfl
      · rename_i hne
        refine List.count_eq_zero_of_not_mem fun hmem => ?_
        obtain ⟨j', hj', he⟩ := mem_resultsIndex.mp hmem
        obtain ⟨rfl, rfl⟩ := hw.reg_inj hj' hj he
        have h1 : feedsOf g start n k' ≤ unlogged g sh.log (feedsOf g start n) :=
          Finset.single_le_sum (f := feedsOf g start n) (fun _ _ => Nat.zero_le _) hk'
        have h2 := le_feeds (n := n) hj
        have h3 := List.count_pos_iff.mpr hn
        rw [feedsOf, if_neg hne] at h1
        unfold due at h0
        omega
    · refine weight_eq_zero fun op hop => Nat.eq_zero_of_not_pos fun hpos => ?_
      have h1 := decrements_of_delivery hw (hf.valid op hop) hj hpos hn
      have h2 := le_weight (Op.decrements g start) n hop
      unfold due at h0
      omega
  have hdel := hf.delivery (g.resultReg k j)
  have hprod := produces_eq hw hj
  intro hnone
  rw [hzero, isDelivered, hnone] at hdel
  simp only [Option.isSome_none, Bool.false_eq_true, ↓reduceIte] at hdel
  omega

/-- The users of a result read its register. -/
theorem userCount_ne (hw : g.Wired start) {k j n : Nat} (hj : j < g.numResults k)
    (hn : n ∈ g.getNextUsedBys k j) : g.userCount (g.resultReg k j) ≠ 0 := by
  intro h0
  rw [users_eq_nil hw hj h0] at hn
  cases hn

/-- A kernel that is going to be processed has its arguments. -/
theorem Ready.argsReady (hw : g.Wired start) (hr : Ready g start sh B)
    (hf : Flow g start sh (B + waitingOps start sh.heap))
    (hs : Slots g start sh (B + waitingOps start sh.heap)) {n : Nat}
    (hn : .processReadyKernel n ∈ B + waitingOps start sh.heap) : ArgsReady g sh n := by
  obtain ⟨hrun, -, hc⟩ := hf.fresh hn
  have h0 : due g start sh (B + waitingOps start sh.heap) n = 0 := by
    have := hr.counter n hrun
    omega
  intro r hmem
  obtain ⟨k, j, hj, rfl⟩ := hw.produced hmem
  have huse := (hw.mem_users hj n).mpr hmem
  by_cases hk : k = start
  · subst hk
    obtain ⟨a, ha⟩ := hs.starts (g.resultReg k j) (mem_resultsIndex.mpr ⟨j, hj, rfl⟩)
    refine ⟨a, ha, ?_⟩
    rcases hr.starts j hj (List.ne_nil_of_mem huse) a ha with h | ⟨-, h⟩
    · exact h
    · have := h.due huse
      omega
  · have hdel := delivered_of_due hw hf hk hj huse h0
    rcases hr.consumed _ (userCount_ne hw hj huse) with h | ⟨v, hv, h⟩
    · rw [h] at hdel
      exact absurd rfl hdel
    · refine ⟨v, hv, h.resolve_left fun hm => ?_⟩
      obtain ⟨j', hj', he⟩ := mem_resultsIndex.mp hm
      exact hk (hw.reg_inj hj' hj he).1.symm

theorem Does.returned (hd : Does g start sh old sh' new net) : ∀ a ∈ sh.returned, a ∈ sh'.returned := by
  intro a ha
  cases hd with
  | @load q c v => rw [(c.resume_fields sh v).2.2.2.2]; exact ha
  | @install q ind c => rw [(c.resume_fields _ ind).2.2.2.2]; exact ha
  | @discard q ind v c => rw [(c.resume_fields _ v).2.2.2.2]; exact ha
  | call => exact List.mem_append_left _ ha
  | _ => exact ha

theorem Does.later (hd : Does g start sh old sh' new net) (hs : Slots g start sh (↑old + Q))
    (hr : Resolving g sh (↑old + Q)) : Later sh sh' :=
  ⟨hd.grows hs hr, hd.reg_step hs, hd.returned, hr.bound_reg⟩

/-- A closure that `ForwardTo` runs finds its value available. -/
theorem sound_released {h : Heap V E Closure} {i v : Addr}
    (hh : sh'.heap = (h.forwardTo i v).1) (hw : ∀ w ∈ (h.cell i).waiters, Waits g start sh i w) :
    ∀ op ∈ waiterOps start (h.forwardTo i v).2, op.Sound g start sh' := by
  intro op hop
  obtain ⟨w, hmem, hop⟩ := List.mem_flatMap.mp hop
  obtain ⟨hmem, hv⟩ := Heap.mem_released_forwardTo hmem
  refine (hw w hmem).sound ?_ op hop
  rw [hh, Heap.isAvailable, Heap.forwardTo_state, if_pos ⟨rfl, hv⟩]
  exact hv

/-- What holds of the operations that a step puts on the agenda. -/
theorem Does.sound (hd : Does g start sh old sh' new net)
    (hf : Flow g start sh (↑old + Q)) (hs : Slots g start sh (↑old + Q))
    (hr : Resolving g sh (↑old + Q)) (hc : Counted g start handles sh (↑old + R))
    (hargs : ∀ k, .processReadyKernel k ∈ old → ArgsReady g sh k)
    (hold : ∀ op ∈ old, op.Sound g start sh)
    (hwait : ∀ a, ∀ w ∈ (sh.heap.cell a).waiters, Waits g start sh a w) :
    ∀ op ∈ new, op.Sound g start sh' := by
  have hl := hd.later hs hr
  have hvalid : ∀ op ∈ old, op.Valid g start := fun op h => hf.valid op (by simp [h])
  have halive : ∀ (op : Op) {a : Addr}, op ∈ old → 0 < op.refs g a → a < sh.heap.next :=
    fun op _ hop ha => hc.lt_next (hc.pos_op op (by simp [hop]) ha)
  have htrue : ∀ {l : List Op}, (∀ op ∈ l, op.Sound g start sh' = True) →
      ∀ op ∈ l, op.Sound g start sh' := fun h op hop => (h op hop).symm ▸ trivial
  have hone : ∀ {op : Op}, op.Sound g start sh' → ∀ op' ∈ [op], op'.Sound g start sh' := by
    intro op h op' hm
    rw [List.mem_singleton.mp hm]
    exact h
  have happ : ∀ {l l' : List Op}, (∀ op ∈ l, op.Sound g start sh') →
      (∀ op ∈ l', op.Sound g start sh') → ∀ op ∈ l ++ l', op.Sound g start sh' := by
    intro l l' h1 h2 op hop
    rcases List.mem_append.mp hop with h | h
    · exact h1 op h
    · exact h2 op h
  cases hd with
  | @pseudoWait j a hp =>
    refine hone ?_
    have hj : j < g.numResults start := hvalid (.pseudoKernel j) (by simp)
    obtain ⟨b, hb⟩ := hs.starts _ (mem_resultsIndex.mpr ⟨j, hj, rfl⟩)
    rw [hb] at hp
    cases hp
    exact hb
  | @pseudoAndThen j a ha =>
    intro op hop
    obtain ⟨w, hmem, hop⟩ := List.mem_flatMap.mp hop
    unfold Heap.andThen at hmem
    split at hmem
    · rename_i hav
      cases List.mem_singleton.mp hmem
      simp only [waiterCode, List.mem_cons, List.not_mem_nil, or_false] at hop
      rcases hop with rfl | rfl | rfl <;> trivial
    · cases hmem
  | decreaseAll =>
    intro op hop
    obtain ⟨u, -, rfl⟩ := List.mem_map.mp hop
    trivial
  | decrease =>
    split
    · exact hone trivial
    · intro op hop
      cases hop
  | @readyCons k ks =>
    intro op hop
    simp only [List.mem_append, List.mem_map, List.mem_cons, List.not_mem_nil, or_false] at hop
    rcases hop with ⟨n, -, rfl⟩ | rfl | rfl <;> trivial
  | enqueue =>
    intro op hop
    simp only [taskFrame, Frame.ops, List.map_cons, List.map_nil, List.singleton_append,
      List.mem_cons, List.not_mem_nil, or_false] at hop
    rcases hop with rfl | rfl | rfl <;> trivial
  | @process k =>
    refine hone ⟨hargs k (by simp), ⟨[], rfl, .nil⟩, rfl⟩
  | addArgsNil =>
    have h := hold _ (List.mem_singleton_self _)
    exact hone h
  | @load r c v hcont hp =>
    cases c with
    | addArg k todo args err =>
      have h : Reading g sh k (r :: todo) args err := hold _ (List.mem_singleton_self _)
      exact hone (h.load hp)
    | takeResult q =>
      intro op hop
      cases hop
  | @make r c hcont hp =>
    cases c with
    | addArg k todo args err =>
      have h : Reading g sh k (r :: todo) args err := hold _ (List.mem_singleton_self _)
      obtain ⟨done, hdone, -⟩ := h.loaded
      obtain ⟨a, ha, -⟩ := h.ready r (by rw [hdone]; simp)
      rw [hp] at ha
      cases ha
    | takeResult q => exact hone trivial
  | @install r ind c hp =>
    cases c with
    | addArg k todo args err => exact (hold _ (List.mem_singleton_self _)).elim
    | takeResult q =>
      intro op hop
      cases hop
  | @discard r ind v c hp =>
    cases c with
    | addArg k todo args err => exact (hold _ (List.mem_singleton_self _)).elim
    | takeResult q =>
      intro op hop
      cases hop
  | @callError k args e =>
    have h : Reading g sh k [] args (some e) := hold _ (List.mem_singleton_self _)
    have hop : Op.Valid g start (.callKernel k args (some e)) := hvalid _ (List.mem_singleton_self _)
    obtain ⟨r, -, hreg, hv⟩ := h.available e (hop.2 e rfl)
    intro op hop
    rcases mem_afterCall hop with ⟨a, -, rfl⟩ | ⟨j, v, hj, rfl⟩
    · trivial
    · have hve : v = e := List.eq_of_mem_replicate (List.mem_of_getElem? hj)
      subst hve
      exact .inr (hl.heap.isAvailable (hr.bound_reg r v (by rw [hreg]; rfl)) hv)
  | @call k args outs o ho hlen hb =>
    intro op hop
    rcases mem_afterCall hop with ⟨a, -, rfl⟩ | ⟨j, v, hj, rfl⟩
    · trivial
    · exact .inl (List.mem_append_right _ (List.mem_of_getElem? hj))
  | @usedBySet k j v hv => exact hone fun hu => hv.resolve_left hu
  | usedByWait =>
    have h := hold _ (List.mem_singleton_self _)
    exact hone h
  | @andThen k j v hlt =>
    intro op hop
    obtain ⟨w, hmem, hop⟩ := List.mem_flatMap.mp hop
    unfold Heap.andThen at hmem
    split at hmem
    · rename_i hav
      cases List.mem_singleton.mp hmem
      simp only [waiterCode, List.mem_cons, List.not_mem_nil, or_false] at hop
      rcases hop with rfl | rfl | rfl
      · exact fun _ => hl.heap.isAvailable hlt hav
      · trivial
      · trivial
    · cases hmem
  | @set k j v =>
    have h : Op.Sound g start sh (.setAsyncValuePtr k j v) := hold _ (List.mem_singleton_self _)
    exact hone fun hu => hl.heap.isAvailable
      (halive (.setAsyncValuePtr k j v) (by simp) (by simp [Op.refs])) (h hu)
  | occupied =>
    have h := hold _ (List.mem_singleton_self _)
    exact hone h
  | @forwardExisting k j i v hi hv =>
    refine happ (sound_released rfl fun w hw' => hwait i w ?_) (hone trivial)
    rwa [Heap.dropRef_waiters] at hw'
  | @forwardTo i v hi hv =>
    exact happ (sound_released rfl fun w hw' => hwait i w hw') (hone trivial)
  | @resolveConcrete a out hp ha hk ho =>
    have hst : (stateOf out).isAvailable = true := by cases out <;> rfl
    refine happ (fun op hop => ?_) (hone trivial)
    obtain ⟨w, hmem, hop⟩ := List.mem_flatMap.mp hop
    refine (hwait a w hmem).sound ?_ op hop
    rw [Heap.isAvailable, Heap.notifyAvailable_cell, if_pos rfl]
    exact hst
  | @resolveIndirect a out form ty h hp ha hk ho hh =>
    refine happ (sound_released rfl fun w hw' => hwait a w ?_) (hone trivial)
    rwa [hh, Heap.alloc_cell, if_neg (Nat.ne_of_lt ha)] at hw'
  | _ => exact htrue (by simp [Op.Sound])

theorem mem_waiters_alloc {h : Heap V E Closure} {c : Cell V E Closure} (hc : c.waiters = [])
    {a : Addr} {w : Waiter Closure} (hw : w ∈ ((h.alloc c).cell a).waiters) :
    w ∈ (h.cell a).waiters := by
  rw [Heap.alloc_cell] at hw
  split at hw
  · rw [hc] at hw
    cases hw
  · exact hw

theorem mem_waiters_allocAll {h : Heap V E Closure} {fs : List (Fresh V E)} {a : Addr}
    {w : Waiter Closure} (hw : w ∈ ((allocAll h fs).cell a).waiters) : w ∈ (h.cell a).waiters := by
  induction fs generalizing h with
  | nil => exact hw
  | cons f fs ih => exact mem_waiters_alloc rfl (ih hw)

/-- A closure that waits after a step waited before, or was passed to `AndThen` or to `ForwardTo`. -/
theorem Does.mem_waiters (hd : Does g start sh old sh' new net) {a : Addr} {w : Waiter Closure}
    (hw : w ∈ (sh'.heap.cell a).waiters) : w ∈ (sh.heap.cell a).waiters ∨
      (∃ k j, old = [.andThen k j a] ∧ w = .client (.setAndDecrease k j a) ∧
        sh.heap.isAvailable a = false) ∨
      (∃ j, old = [.pseudoAndThen j a] ∧ w = .client (.decrease j)) ∨ ∃ i, w = .forward i a := by
  cases hd with
  | @pseudoAndThen j b hb =>
    rcases Heap.mem_waiters_andThen hw with h | ⟨rfl, rfl, -⟩
    · exact .inl h
    · exact .inr (.inr (.inl ⟨j, rfl, rfl⟩))
  | @andThen k j v hv =>
    rcases Heap.mem_waiters_andThen hw with h | ⟨rfl, rfl, h⟩
    · exact .inl h
    · exact .inr (.inl ⟨k, j, rfl, rfl, h⟩)
  | @load q c v =>
    rw [c.resume_heap] at hw
    exact .inl hw
  | @install q ind c =>
    rw [c.resume_heap] at hw
    exact .inl hw
  | @discard q ind v c =>
    rw [c.resume_heap, Heap.dropRef_waiters] at hw
    exact .inl hw
  | make => exact .inl (mem_waiters_alloc rfl hw)
  | callError =>
    rw [addRefs_waiters] at hw
    exact .inl hw
  | call =>
    rw [dropReady_waiters, addRefs_waiters] at hw
    exact .inl (mem_waiters_allocAll hw)
  | dropRef =>
    rw [Heap.dropRef_waiters] at hw
    exact .inl hw
  | set =>
    rw [Heap.addRef_waiters] at hw
    exact .inl hw
  | @forwardExisting k j i v =>
    rcases Heap.mem_waiters_forwardTo hw with h | ⟨rfl, rfl, -⟩
    · rw [Heap.dropRef_waiters] at h
      exact .inl h
    · exact .inr (.inr (.inr ⟨i, rfl⟩))
  | @forwardTo i v =>
    rcases Heap.mem_waiters_forwardTo hw with h | ⟨rfl, rfl, -⟩
    · exact .inl h
    · exact .inr (.inr (.inr ⟨i, rfl⟩))
  | resolveConcrete => exact .inl (Heap.mem_waiters_notifyAvailable hw)
  | @resolveIndirect b out form ty h hp hb hk ho hh =>
    rcases Heap.mem_waiters_forwardTo hw with h | ⟨rfl, rfl, -⟩
    · rw [hh] at h
      exact .inl (mem_waiters_alloc rfl h)
    · exact .inr (.inr (.inr ⟨b, rfl⟩))
  | dropResult | dropArgument =>
    rw [Heap.dropRef_waiters] at hw
    exact .inl hw
  | _ => exact .inl hw

theorem Does.waits (hd : Does g start sh old sh' new net) (hl : Later sh sh')
    (hold : ∀ op ∈ old, op.Sound g start sh)
    (hwait : ∀ a, ∀ w ∈ (sh.heap.cell a).waiters, Waits g start sh a w) :
    ∀ a, ∀ w ∈ (sh'.heap.cell a).waiters, Waits g start sh' a w := by
  intro a w hw
  rcases hd.mem_waiters hw with h | ⟨k, j, rfl, rfl, hun⟩ | ⟨j, rfl, rfl⟩ | ⟨i, rfl⟩
  · exact hl.waits (hwait a w h)
  · have h : a ∈ sh.returned ∨ sh.heap.isAvailable a = true :=
      hold (.andThen k j a) (List.mem_singleton_self _)
    refine ⟨rfl, hl.returned a (h.resolve_right fun hav => ?_)⟩
    rw [hun] at hav
    cases hav
  · exact hl.direct (hold (.pseudoAndThen j a) (List.mem_singleton_self _))
  · trivial

/-- A register with consumers holds nothing, or an available value of its producer. -/
theorem Does.consumed (hw : g.Wired start) (hd : Does g start sh old sh' new net)
    (hf : Flow g start sh (↑old + Q)) (hs : Slots g start sh (↑old + Q)) (hl : Later sh sh')
    (hold : ∀ op ∈ old, op.Sound g start sh) {r : Nat} (hu : g.userCount r ≠ 0)
    (hc : sh.regs r = .empty ∨
      ∃ v, sh.regs r = .direct v ∧ (r ∈ g.resultsIndex start ∨ sh.heap.isAvailable v = true)) :
    sh'.regs r = .empty ∨
      ∃ v, sh'.regs r = .direct v ∧ (r ∈ g.resultsIndex start ∨ sh'.heap.isAvailable v = true) := by
  have hvalid : ∀ op ∈ old, op.Valid g start := fun op h => hf.valid op (by simp [h])
  have hsame : sh'.regs r = sh.regs r → sh'.regs r = .empty ∨
      ∃ v, sh'.regs r = .direct v ∧ (r ∈ g.resultsIndex start ∨ sh'.heap.isAvailable v = true) := by
    intro he
    rw [he]
    refine hc.imp id ?_
    rintro ⟨v, hv, h⟩
    exact ⟨v, hv, h.imp id (hl.heap.isAvailable (hl.bound r v (by rw [hv]; rfl)))⟩
  cases hd with
  | @load q c v => exact hsame (congrFun (c.resume_fields sh v).2.1 r)
  | @discard q ind v c => exact hsame (congrFun (c.resume_fields _ v).2.1 r)
  | @install q ind c hp =>
    cases c with
    | addArg k todo args err => exact (hold _ (List.mem_singleton_self _)).elim
    | takeResult q' =>
      have hop : Op.Valid g start (.installIndirect q ind (.takeResult q')) :=
        hvalid _ (List.mem_singleton_self _)
      have hq : r ≠ q := fun he => hu (he ▸ ((hw.mem_resultRegs q).mp hop.2).2)
      exact hsame (Function.update_of_ne hq _ _)
  | @store k j v hp =>
    have hop : Op.Valid g start (.casAsyncValuePtr k j v) := hvalid _ (List.mem_singleton_self _)
    have hv : Op.Sound g start sh (.casAsyncValuePtr k j v) := hold _ (List.mem_singleton_self _)
    by_cases hr : r = g.resultReg k j
    · subst hr
      refine .inr ⟨v, Function.update_self .., .inr (hv fun hnil => hu ?_)⟩
      have hread : ∀ n, g.resultReg k j ∉ g.argumentsIdx n := by
        intro n hn
        have := (hw.mem_users hop.2 n).mpr hn
        rw [hnil] at this
        cases this
      rw [hw.userCount_eq (hw.reg_lt hop.2)]
      exact Finset.sum_eq_zero fun n _ => List.count_eq_zero_of_not_mem (hread n)
    · exact hsame (Function.update_of_ne hr _ _)
  | @forwardExisting k j i v hi hv =>
    by_cases hr : r = g.resultReg k j
    · subst hr
      have hreg := hs.existing k j i v (by simp)
      rw [hreg] at hc
      rcases hc with h | ⟨x, h, -⟩ <;> cases h
    · exact hsame (Function.update_of_ne hr _ _)
  | _ => exact hsame rfl

/-- A closure waits on until its value is available. -/
theorem Does.waiters_kept (hd : Does g start sh old sh' new net) {a : Addr} (ha : a < sh.heap.next)
    {w : Waiter Closure} (hw : w ∈ (sh.heap.cell a).waiters) :
    w ∈ (sh'.heap.cell a).waiters ∨ sh'.heap.isAvailable a = true := by
  have halloc : ∀ {h : Heap V E Closure} {c : Cell V E Closure}, a < h.next →
      w ∈ (h.cell a).waiters → w ∈ ((h.alloc c).cell a).waiters := by
    intro h c hlt hw'
    rw [Heap.alloc_cell, if_neg (Nat.ne_of_lt hlt)]
    exact hw'
  cases hd with
  | pseudoAndThen => exact .inl (Heap.waiters_andThen hw)
  | andThen => exact .inl (Heap.waiters_andThen hw)
  | @load q c v =>
    rw [c.resume_heap]
    exact .inl hw
  | @install q ind c =>
    rw [c.resume_heap]
    exact .inl hw
  | @discard q ind v c =>
    rw [c.resume_heap, Heap.dropRef_waiters]
    exact .inl hw
  | make => exact .inl (halloc ha hw)
  | callError =>
    rw [addRefs_waiters]
    exact .inl hw
  | @call k args outs o ho hl hb =>
    rw [dropReady_waiters, addRefs_waiters, allocAll_cell _ _ sh.heap.next rfl,
      if_neg (Nat.not_le_of_lt ha)]
    exact .inl hw
  | dropRef =>
    rw [Heap.dropRef_waiters]
    exact .inl hw
  | set =>
    rw [Heap.addRef_waiters]
    exact .inl hw
  | forwardExisting => exact Heap.waiters_forwardTo (by rwa [Heap.dropRef_waiters])
  | forwardTo => exact Heap.waiters_forwardTo hw
  | @resolveConcrete b out hp hb hk ho =>
    have hst : (stateOf out).isAvailable = true := by cases out <;> rfl
    by_cases hab : a = b
    · right
      rw [Heap.isAvailable, Heap.notifyAvailable_cell, if_pos hab]
      exact hst
    · left
      rw [Heap.notifyAvailable_cell, if_neg hab]
      exact hw
  | @resolveIndirect b out form ty h hp hb hk ho hh =>
    refine Heap.waiters_forwardTo ?_
    rw [hh]
    exact halloc ha hw
  | dropResult | dropArgument =>
    rw [Heap.dropRef_waiters]
    exact .inl hw
  | _ => exact .inl hw

/-- What is undecided stays so until the argument is available. -/
theorem Does.undecided (hw : g.Wired start) (hd : Does g start sh old sh' new net)
    (hl : Later sh sh') (hold : ∀ op ∈ old, op.Sound g start sh)
    (hwait : ∀ a, ∀ w ∈ (sh.heap.cell a).waiters, Waits g start sh a w) {j : Nat}
    (hj : j < g.numResults start) (h0 : j ≠ 0) (hu : g.getNextUsedBys start j ≠ []) {a : Addr}
    (ha : sh.regs (g.resultReg start j) = .direct a) (h : Undecided sh (↑old + R) j) :
    sh'.heap.isAvailable a = true ∨ Undecided sh' (↑new + R) j := by
  have hptr : ∀ {b : Addr}, (sh.regs (g.resultReg start j)).ptr = some b → b = a := by
    intro b hb
    rw [ha] at hb
    cases hb
    rfl
  rcases h with h | ⟨b, h⟩ | ⟨b, hb, h⟩
  · rcases Multiset.mem_add.mp h with h | h
    · have h := Multiset.mem_coe.mp h
      cases hd with
      | pseudoFirst =>
        cases List.mem_singleton.mp h
        exact absurd rfl h0
      | @pseudoUnused j' hj' hor =>
        cases List.mem_singleton.mp h
        refine absurd ?_ hu
        rcases hor with h1 | h1
        · exact users_eq_nil hw hj h1
        · exact h1
      | @pseudoAvailable j' b hp hb =>
        cases List.mem_singleton.mp h
        rw [← hptr hp]
        exact .inl hb
      | @pseudoWait j' b hp =>
        cases List.mem_singleton.mp h
        exact .inr (.inr (.inl ⟨b, by simp⟩))
      | @load q c => cases c <;> simp [Cont.op] at h
      | @make q c => cases c <;> simp [Cont.op] at h
      | _ => simp at h
    · exact .inr (.inl (Multiset.mem_add.mpr (.inr h)))
  · rcases Multiset.mem_add.mp h with h | h
    · have h := Multiset.mem_coe.mp h
      cases hd with
      | @pseudoAndThen j' b' hlt =>
        cases List.mem_singleton.mp h
        have hb : sh.regs (g.resultReg start j) = .direct b := hold _ (List.mem_singleton_self _)
        have hba : b = a := hptr (by rw [hb]; rfl)
        subst hba
        cases hv : sh.heap.isAvailable b with
        | true => exact .inl (hl.heap.isAvailable hlt hv)
        | false =>
          exact .inr (.inr (.inr ⟨b, Nat.lt_of_lt_of_le hlt hl.heap.next, Heap.mem_andThen hv⟩))
      | @load q c => cases c <;> simp [Cont.op] at h
      | @make q c => cases c <;> simp [Cont.op] at h
      | _ => simp at h
    · exact .inr (.inr (.inl ⟨b, Multiset.mem_add.mpr (.inr h)⟩))
  · have hreg : sh.regs (g.resultReg start j) = .direct b := hwait b _ h
    have hba : b = a := hptr (by rw [hreg]; rfl)
    subst hba
    rcases hd.waiters_kept hb h with h | h
    · exact .inr (.inr (.inr ⟨b, Nat.lt_of_lt_of_le hb hl.heap.next, h⟩))
    · exact .inl h

end Ready

section Runs

variable {handles : Addr → Nat} {s s' : St V E} {l : Label V E}

theorem Ready.step (hw : g.Wired start) (hsafe : Safe g start handles s)
    (hr : Ready g start s.sh s.running) (hs : step g start s l = some s')
    (hok : DropsDelivered s l) : Ready g start s'.sh s'.running := by
  obtain ⟨old, new, net, R, Q, hd, h1, h2, h3, h4, -⟩ := hsafe.does hs hok
  have hflow := h3 ▸ hsafe.flow
  have hslots := h3 ▸ hsafe.slots
  have hres := h3 ▸ hsafe.resolving
  have hcount := h1 ▸ hsafe.counted
  have hl := hd.later hslots hres
  have hold : ∀ op ∈ old, op.Sound g start s.sh := fun op h => hr.ops op (by rw [h1]; simp [h])
  have hargs : ∀ k, .processReadyKernel k ∈ old → ArgsReady g s.sh k := fun k hk =>
    hr.argsReady hw hsafe.flow hsafe.slots (Multiset.mem_add.mpr (.inl (by rw [h1]; simp [hk])))
  refine ⟨fun n hn => ?_, fun op hop => ?_, hd.waits hl hold hr.waiters, fun r hu =>
    hd.consumed hw hflow hslots hl hold hu (hr.consumed r hu), fun j hj hu a ha => ?_⟩
  · have hdebt := hd.debt hw hflow n
    have hc := hr.counter n hn
    change _ = ((due g start s.sh (s.agenda start) n : Nat) : Int) at hc
    change _ = ((due g start s'.sh (s'.agenda start) n : Nat) : Int)
    rw [h3] at hc
    rw [h4]
    unfold due at hc ⊢
    unfold GraphExecutor.debt at hdebt
    rw [weight_add, weight_coe] at hc ⊢
    omega
  · rw [h2] at hop
    rcases Multiset.mem_add.mp hop with h | h
    · exact hd.sound hflow hslots hres hcount hargs hold hr.waiters op (Multiset.mem_coe.mp h)
    · have hmem : op ∈ s.running := by rw [h1]; simp [h]
      exact hl.sound (fun a ha => hsafe.counted.lt_next (hsafe.counted.pos_op op hmem ha))
        (hr.ops op hmem)
  · obtain ⟨b, hb⟩ := hsafe.slots.starts _ (mem_resultsIndex.mpr ⟨j, hj, rfl⟩)
    have hba : b = a := by
      have := hl.direct hb
      rw [ha] at this
      cases this
      rfl
    subst hba
    rcases hr.starts j hj hu b hb with h | ⟨h0, h⟩
    · exact .inl (hl.heap.isAvailable (hl.bound _ b (by rw [hb]; rfl)) h)
    · rw [h2]
      rw [h1] at h
      exact (hd.undecided hw hl hold hr.waiters hj h0 hu hb h).imp id fun h' => ⟨h0, h'⟩

end Runs

end GraphExecutor

end AsyncLib
