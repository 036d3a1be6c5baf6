import AsyncLib.Runtime.Accesses

/-!
# Nothing is left behind

* `references_at_rest`: when nothing is left to do, the count of every value is the number of its
  handles, of the registers through which the caller holds it, and of the indirect values that point
  at it. The entry of `results` of a start result without a consumer is the reference of the caller to
  its argument.
* `references_balance`: if all start results have consumers, the caller holds its arguments and the
  entries of `results`, each with a reference of its own. The registers keep nothing.
* `no_leak`: when the caller has dropped all results, a value that the run made is alive only as
  the target of an indirect value of the caller.
-/

namespace AsyncLib

namespace GraphExecutor

open AsyncValue Sys Agenda AsyncGraph

variable {F V E : Type} {g : AsyncGraph F} {start : Nat}

/-! ## The references that are left -/

/-- Nothing is left to do, and every living value is resolved. -/
structure St.AtRest (s : St V E) : Prop extends St.Done s where
  available : ∀ a, 0 < s.sh.heap.refs a → s.sh.heap.isAvailable a = true

/-- Whether the caller holds `x` through the register `r`: as its argument, if it is a register of
the start node, and otherwise as the entry of `results`. -/
def holdsVia (g : AsyncGraph F) (start : Nat) (sh : Shared V E) (x : Addr) (r : Nat) : Nat :=
  if r ∈ g.resultsIndex start then
    if (sh.regs r).ptr = some x ∧ sh.results r ≠ .dropped then 1 else 0
  else if sh.results r = .held x then 1 else 0

/-- How often the caller holds `x`. -/
def holding (g : AsyncGraph F) (start : Nat) (sh : Shared V E) (x : Addr) : Nat :=
  ∑ r ∈ Finset.range g.numRegs, holdsVia g start sh x r

section AtRest

variable {handles : Addr → Nat} {rank : Nat → Nat} {s : St V E}

/-- No read of a register is to come. -/
theorem St.Settled.uses_eq_zero (hr : g.Runnable start rank) (hset : s.Settled)
    (hsafe : Safe g start handles s) (hready : Ready g start s.sh s.running)
    (hargs : ∀ j, j < g.numResults start → ∃ a, s.sh.regs (g.resultReg start j) = .direct a ∧
      s.sh.heap.isAvailable a = true) (r : Nat) : uses g s.sh s.running r = 0 := by
  have hlog : unlogged g s.sh.log (fun n => (g.argumentsIdx n).count r) = 0 := by
    refine Finset.sum_eq_zero fun n hn => ?_
    obtain ⟨hlt, hnot⟩ := Finset.mem_filter.mp hn
    by_cases hne : n = start
    · rw [hne, hr.start_args]
      rfl
    · have := hset.processed hr hsafe hready hargs (n := n) ⟨hne, Finset.mem_range.mp hlt⟩
      exact absurd (List.count_pos_iff.mp (by omega)) hnot
  have hreads : weight Op.reads s.running r = 0 := by
    refine weight_eq_zero fun op hop => ?_
    have hidle := hset.idle op hop
    cases op with
    | installIndirect q ind c =>
      cases c with
      | addArg => cases hidle
      | takeResult => rfl
    | addArgs k todo args err => cases hidle
    | _ => rfl
  rw [uses, hlog, hreads]

/-- At rest nobody waits. -/
theorem St.AtRest.waiting_eq_zero (hrest : s.AtRest) (hsafe : Safe g start handles s)
    (hready : Ready g start s.sh s.running) (hfwd : Forwarding s.sh (s.agenda start))
    (hargs : ∀ j, j < g.numResults start → ∃ a, s.sh.regs (g.resultReg start j) = .direct a ∧
      s.sh.heap.isAvailable a = true) (x : Addr) :
    Heap.waiting (Waiter.refs Closure.refs) s.sh.heap x = 0 := by
  by_contra hpos
  obtain ⟨b, hb, w, hw, -⟩ := Heap.exists_of_waiting_pos (Waiter.refs Closure.refs) x
    (Nat.pos_of_ne_zero hpos)
  have hnone : s.sh.heap.isAvailable b = false := by
    by_contra hav
    rw [hsafe.counted.counts.wf.quiet b (by simpa using hav)] at hw
    cases hw
  have hdrop : ∀ {w : Waiter Closure}, w ∈ (s.sh.heap.cell b).waiters →
      .dropExecutor ∈ waiterCode start w → .dropExecutor ∈ waitingOps start s.sh.heap :=
    fun h1 h2 => mem_waitingOps.mpr ⟨b, hb, _, h1, h2⟩
  have hforward : ∃ i v, w = .forward i v := by
    match w with
    | .forward i v => exact ⟨i, v, rfl⟩
    | .client (.setAndDecrease k j v) =>
      obtain ⟨i, v', h⟩ := hrest.settled.waiting hsafe hready hargs (hdrop hw (by simp [waiterCode]))
      cases h
    | .client (.decrease j) =>
      obtain ⟨i, v', h⟩ := hrest.settled.waiting hsafe hready hargs (hdrop hw (by simp [waiterCode]))
      cases h
  -- the closure of a `ForwardTo` holds a reference to the value that it waits for
  obtain ⟨i, v, rfl⟩ := hforward
  have hbv : b = v := hfwd.waits b i v hw
  have hle := Heap.le_waiting (Waiter.refs Closure.refs) v hb hw
  have hown : 0 < Waiter.refs Closure.refs (.forward i v) v := by simp [Waiter.refs]
  have hlive : 0 < s.sh.heap.refs v := by
    rw [hsafe.counted.counts.acc v]
    omega
  rw [hbv, hrest.available v hlive] at hnone
  cases hnone

/-- The references of a register and of its entry of `results` at rest. -/
theorem entryRefs_at_rest (hw : g.Wired start) (hs : Slots g start s.sh (s.agenda start))
    (hready : Ready g start s.sh s.running) {r : Nat} (hr : r < g.numRegs)
    (hfull : r ∈ g.resultRegs → s.sh.results r ≠ .empty) (x : Addr) :
    entryRefs g start r (s.sh.regs r) (s.sh.results r) 0 x = holdsVia g start s.sh x r := by
  unfold holdsVia
  by_cases hst : r ∈ g.resultsIndex start
  · obtain ⟨a, ha⟩ := hs.starts r hst
    have hslot : slotRefs g start r (s.sh.results r) x = 0 := by
      cases hres : s.sh.results r <;> simp [slotRefs, hst]
    simp only [entryRefs, ha, Reg.ptr_direct, Option.elim_some, Pi.add_apply, hslot, entryBase,
      if_pos hst, Nat.zero_add, Nat.add_zero, Option.some.injEq, Pi.single_apply, @eq_comm _ x a]
    by_cases hd : s.sh.results r = .dropped
    · simp [hd]
    · simp [hd]
  · have hbase : entryBase g start r (s.sh.regs r) (s.sh.results r) = 0 := by
      rw [entryBase, if_neg hst]
      by_cases hu : g.userCount r = 0
      · rw [if_pos hu, if_neg (hfull ((hw.mem_resultRegs r).mpr ⟨hr, hu⟩))]
      · rw [if_neg hu]
        rcases hready.consumed r hu with h | ⟨v, h, -⟩ <;> rw [h] <;> rfl
    have hreg : ((s.sh.regs r).ptr.elim 0 fun a => (Pi.single a
        (0 + entryBase g start r (s.sh.regs r) (s.sh.results r)) : Addr → Nat)) x = 0 := by
      rw [hbase]
      cases (s.sh.regs r).ptr <;> simp
    rw [entryRefs, Pi.add_apply, hreg, Nat.zero_add, if_neg hst]
    cases hres : s.sh.results r with
    | empty => simp [slotRefs]
    | dropped => simp [slotRefs]
    | held a => simp [slotRefs, hst, Pi.single_apply, @eq_comm _ x a]

end AtRest

section Theorems

variable {nodes : List (AsyncNode F)} {order : HashOrder} {handles : Addr → Nat}
  {heap : Heap V E Closure} {promised : Addr → Bool} {arguments : List Addr} {s : St V E}

/-- **At rest the count of every value is the number of its handles, of the arguments and entries of
`results` that hold it, and of the indirect values that point at it.** -/
theorem references_at_rest (hwf : WellFormed nodes)
    (hstart : (build order nodes).startNode = some start)
    (hc : Caller (build order nodes) start handles heap promised arguments)
    (hargs : ∀ a ∈ arguments.take ((build order nodes).numResults start), heap.isAvailable a = true)
    (hr : (sys (build order nodes) start heap promised arguments).Reach DropsDelivered s)
    (hrest : s.AtRest) (x : Addr) :
    s.sh.heap.refs x = handles x + holding (build order nodes) start s.sh x +
      ((Finset.range s.sh.heap.next).filter fun i => (s.sh.heap.cell i).mValue = some x).card := by
  have hrun := hwf.runnable hstart
  have hsafe := Safe.reach hrun.toWired hc hr
  have hget : ∀ j a, j < (build order nodes).numResults start → arguments[j]? = some a →
      heap.isAvailable a = true := fun j a hj ha =>
    hargs a (List.mem_of_getElem? (by rw [List.getElem?_take_of_lt hj]; exact ha))
  have hready := Ready.reach hrun hc (fun _ a ha =>
    hget 0 a (hwf.numResults_pos (start_lt hrun.toWired)) ha) hr
  have hfwd := Forwarding.reach hrun.toWired hc hr
  have hkept := Kept.reach hrun.toWired hc hr
  have hstarts : ∀ j, j < (build order nodes).numResults start →
      ∃ a, s.sh.regs ((build order nodes).resultReg start j) = .direct a ∧
        s.sh.heap.isAvailable a = true := by
    intro j hj
    obtain ⟨a, ha, hlt, hreg⟩ := hkept.regs j hj
    exact ⟨a, hreg, hkept.grows.isAvailable hlt (hget j a hj ha)⟩
  have hfull : ∀ r, r ∈ (build order nodes).resultRegs → s.sh.results r ≠ .empty := by
    intro r hmem hempty
    have htake : weight Op.take (s.agenda start) r = 0 := by
      refine weight_eq_zero fun op hop => ?_
      rcases Multiset.mem_add.mp hop with h | h
      · rw [hrest.running] at h
        cases h
      · obtain ⟨i, v, rfl⟩ := hrest.settled.waiting hsafe hready hstarts h
        rfl
    have hturn := hsafe.slots.turn r (mem_taken hmem)
    rw [htake, filled, if_pos hempty] at hturn
    cases hturn
  have hpromised : promisedRefs s.sh x = 0 := by
    unfold promisedRefs
    split
    · rename_i hp
      have hun := hsafe.resolving.unavailable_promised hp
      rw [hrest.available x (hsafe.counted.pos_promised hp)] at hun
      cases hun
    · rfl
  have hops : weight (Op.refs (build order nodes)) s.running x = 0 := by
    rw [hrest.running]
    rfl
  have hentries : entries (build order nodes) start s.sh
      (uses (build order nodes) s.sh s.running) x = holding (build order nodes) start s.sh x := by
    refine Finset.sum_congr rfl fun r hmem => ?_
    rw [hrest.settled.uses_eq_zero hrun hsafe hready hstarts r]
    exact entryRefs_at_rest hrun.toWired hsafe.slots hready (Finset.mem_range.mp hmem) (hfull r) x
  have hacc := hsafe.counted.counts.acc x
  rw [hrest.waiting_eq_zero hsafe hready hfwd hstarts x, Heap.pointing_eq_card] at hacc
  simp only [owed, rest, Pi.add_apply, hpromised, hops, hentries] at hacc
  omega

/-- Without argument drops, only slots of output registers are dropped. -/
theorem results_dropped_reach (hw : g.Wired start)
    (hc : Caller g start handles heap promised arguments)
    (hr : (sys g start heap promised arguments).Reach DropsDelivered s) {r : Nat}
    (h : s.sh.results r = .dropped) : r ∈ g.resultRegs := by
  induction hr with
  | init hi =>
    rw [show _ = init g start heap promised arguments from hi] at h
    cases h
  | @step s₁ l s₂ hr₁ hok hn ih =>
    have hsafe := Safe.reach hw hc hr₁
    by_cases hheld : ∃ a, s₁.sh.results r = .held a
    · obtain ⟨a, ha⟩ := hheld
      exact hsafe.slots.output_held ha
    · exact ih ((step_moves hn).results_dropped hsafe h fun a ha => hheld ⟨a, ha⟩)

/-- The start registers hold the arguments of the call. -/
theorem Kept.map_ptr {sh : Shared V E} (h : Kept g start heap arguments sh) :
    (g.resultsIndex start).map (fun r => (sh.regs r).ptr) =
      (arguments.take (g.numResults start)).map some := by
  refine List.ext_getElem? fun j => ?_
  rcases Nat.lt_or_ge j (g.numResults start) with hj | hj
  · obtain ⟨a, ha, -, hreg⟩ := h.regs j hj
    have hidx : (g.resultsIndex start)[j]? = some (g.resultReg start j) := by
      rw [AsyncGraph.resultReg, List.getD_eq_getElem _ _ hj]
      exact List.getElem?_eq_getElem hj
    rw [List.getElem?_map, List.getElem?_map, List.getElem?_take_of_lt hj, hidx, ha, Option.map_some,
      Option.map_some, hreg, Reg.ptr_direct]
  · rw [List.getElem?_eq_none (by rw [List.length_map]; exact hj),
      List.getElem?_eq_none (by rw [List.length_map, List.length_take]; omega)]

/-- If every start result has a consumer, the caller holds `x` as its arguments and as the entries of
`results`, which are different references. -/
theorem holding_eq (hw : g.Wired start) (hused : ∀ r ∈ g.resultsIndex start, g.userCount r ≠ 0)
    (hs : Slots g start s.sh (s.agenda start)) (hkept : Kept g start heap arguments s.sh)
    (hdrop : ∀ r, s.sh.results r = .dropped → r ∈ g.resultRegs) (x : Addr) :
    holding g start s.sh x = (arguments.take (g.numResults start)).count x +
      ((Finset.range g.numRegs).filter fun r => s.sh.results r = .held x).card := by
  have hnot : ∀ r ∈ g.resultsIndex start, r ∉ g.resultRegs := fun r hr hmem =>
    hused r hr ((hw.mem_resultRegs r).mp hmem).2
  have hvia : ∀ r, holdsVia g start s.sh x r =
      (if r ∈ g.resultsIndex start ∧ (s.sh.regs r).ptr = some x then 1 else 0) +
        if s.sh.results r = .held x then 1 else 0 := by
    intro r
    unfold holdsVia
    by_cases hst : r ∈ g.resultsIndex start
    · have hheld : s.sh.results r ≠ .held x := fun h => hnot r hst (hs.output_held h)
      have hkeep : s.sh.results r ≠ .dropped := fun h => hnot r hst (hdrop r h)
      simp [hst, hheld, hkeep]
    · simp [hst]
  have hargs : ((Finset.range g.numRegs).filter fun r =>
      r ∈ g.resultsIndex start ∧ (s.sh.regs r).ptr = some x).card =
        (arguments.take (g.numResults start)).count x := by
    have hset : (Finset.range g.numRegs).filter (fun r =>
        r ∈ g.resultsIndex start ∧ (s.sh.regs r).ptr = some x) =
          ((g.resultsIndex start).filter fun r => (s.sh.regs r).ptr = some x).toFinset := by
      ext r
      simp only [Finset.mem_filter, Finset.mem_range, List.mem_toFinset, List.mem_filter,
        decide_eq_true_eq, and_iff_right_iff_imp]
      rintro ⟨-, hp⟩
      exact hs.inRange r fun h => by rw [h] at hp; cases hp
    calc _ = ((g.resultsIndex start).filter fun r => (s.sh.regs r).ptr = some x).length := by
          rw [hset, List.toFinset_card_of_nodup ((resultsIndex_nodup hw start).filter _)]
      _ = ((g.resultsIndex start).map fun r => (s.sh.regs r).ptr).count (some x) := by
          rw [List.count, List.countP_map, List.countP_eq_length_filter]
          exact congrArg _ (List.filter_congr fun r _ => (beq_eq_decide _ _).symm)
      _ = (arguments.take (g.numResults start)).count x := by
          rw [hkept.map_ptr, List.count_map_of_injective _ _ (Option.some_injective _)]
  rw [holding, Finset.sum_congr rfl fun r _ => hvia r, Finset.sum_add_distrib, ← hargs,
    Finset.card_filter, Finset.card_filter]

/-- **At rest the count of every value is the number of its handles, of its occurrences among the
arguments, of the entries of `results` that hold it, and of the indirect values that point at it**, if
every start result has a consumer. -/
theorem references_balance (hwf : WellFormed nodes)
    (hstart : (build order nodes).startNode = some start)
    (hused : ∀ r ∈ (build order nodes).resultsIndex start, (build order nodes).userCount r ≠ 0)
    (hc : Caller (build order nodes) start handles heap promised arguments)
    (hargs : ∀ a ∈ arguments.take ((build order nodes).numResults start), heap.isAvailable a = true)
    (hr : (sys (build order nodes) start heap promised arguments).Reach DropsDelivered s)
    (hrest : s.AtRest) (x : Addr) :
    s.sh.heap.refs x = handles x + (arguments.take ((build order nodes).numResults start)).count x +
      ((Finset.range (build order nodes).numRegs).filter fun r => s.sh.results r = .held x).card +
      ((Finset.range s.sh.heap.next).filter fun i => (s.sh.heap.cell i).mValue = some x).card := by
  have hw := (hwf.runnable hstart).toWired
  rw [references_at_rest hwf hstart hc hargs hr hrest x, holding_eq hw hused (Safe.reach hw hc hr).slots
    (Kept.reach hw hc hr) (fun r => results_dropped_reach hw hc hr) x, ← add_assoc]

/-- A concrete run that ends in a state with a decidable property. -/
theorem exists_after {g : AsyncGraph F} {fs : List (Fresh V E)} {ls : List (Label V E)}
    {P : St V E → Prop} [DecidablePred P]
    (h : (after g start fs ls).any (fun s => decide (P s)) = true) :
    ∃ s, after g start fs ls = some s ∧ P s := by
  cases ha : after g start fs ls with
  | none => rw [ha] at h; cases h
  | some s =>
    rw [ha] at h
    exact ⟨s, rfl, of_decide_eq_true h⟩

/-- Only allocated values matter. -/
theorem St.Done.atRest {g : AsyncGraph F} (hdone : s.Done) (hsafe : Safe g start handles s)
    (h : ∀ a, a < s.sh.heap.next → s.sh.heap.isAvailable a = true) : s.AtRest :=
  ⟨hdone, fun a ha => h a (hsafe.counted.lt_next ha)⟩

/-- At the end of a run the value of `f` has one reference, that of `results`, and the argument has
that of the caller. -/
theorem references_balance_chain : ∃ s, after chainGraph 0 [readyValue] (chainExecute 17) = some s ∧
    s.AtRest ∧ s.sh.heap.refs 0 = 1 ∧ s.sh.heap.refs 1 = 1 := by
  obtain ⟨s, hs, hdone, hav, hheld, hheld', hpoint, hpoint'⟩ : ∃ s,
      after chainGraph 0 [readyValue] (chainExecute 17) = some s ∧ (s.Done ∧
        (∀ a, a < s.sh.heap.next → s.sh.heap.isAvailable a = true) ∧
        ((Finset.range chainGraph.numRegs).filter fun r => s.sh.results r = .held 0).card = 0 ∧
        ((Finset.range chainGraph.numRegs).filter fun r => s.sh.results r = .held 1).card = 1 ∧
        ((Finset.range s.sh.heap.next).filter fun i => (s.sh.heap.cell i).mValue = some 0).card = 0 ∧
        ((Finset.range s.sh.heap.next).filter fun i => (s.sh.heap.cell i).mValue = some 1).card = 0) :=
    exists_after rfl
  have hcall := caller_argumentHeap chainGraph 0 [readyValue] rfl
  have hr := reach_after_kept (chainExecute 17) (chainExecute_kept 17) hs
  have hrest := hdone.atRest
    (Safe.reach (wired_build wellFormed_chainNodes.unique rfl) hcall hr) hav
  have hrefs := references_balance wellFormed_chainNodes rfl (by decide) hcall (by decide) hr hrest
  refine ⟨s, hs, hrest, ?_, ?_⟩
  · rw [hrefs 0]
    show 0 + 1 + ((Finset.range chainGraph.numRegs).filter _).card + _ = 1
    rw [hheld, hpoint]
  · rw [hrefs 1]
    show 0 + 0 + ((Finset.range chainGraph.numRegs).filter _).card + _ = 1
    rw [hheld', hpoint']

/-- **Nothing that the run made outlives its results**: when the caller has dropped all of them, such
a value is alive only if an indirect value that the caller had before the call points at it. -/
theorem no_leak (hwf : WellFormed nodes) (hstart : (build order nodes).startNode = some start)
    (hc : Caller (build order nodes) start handles heap promised arguments)
    (hargs : ∀ a ∈ arguments.take ((build order nodes).numResults start), heap.isAvailable a = true)
    (hr : (sys (build order nodes) start heap promised arguments).Reach DropsDelivered s)
    (hrest : s.AtRest) (hdropped : ∀ r ∈ (build order nodes).resultRegs, s.sh.results r = .dropped)
    {x : Addr} (hx : heap.next ≤ x) (hlive : 0 < s.sh.heap.refs x) :
    ∃ i, i < heap.next ∧ (s.sh.heap.cell i).mValue = some x := by
  have hrun := hwf.runnable hstart
  have hsafe := Safe.reach hrun.toWired hc hr
  have hkept := Kept.reach hrun.toWired hc hr
  have hhandles : ∀ y, heap.next ≤ y → handles y = 0 := by
    intro y hy
    have hacc := hc.counts.acc y
    rw [hc.counts.wf.unused y hy] at hacc
    simp only [Pi.add_apply] at hacc
    omega
  have hholding : ∀ y, heap.next ≤ y → holding (build order nodes) start s.sh y = 0 := by
    intro y hy
    refine Finset.sum_eq_zero fun r _ => ?_
    unfold holdsVia
    split
    · rename_i hst
      obtain ⟨j, hj, rfl⟩ := mem_resultsIndex.mp hst
      obtain ⟨a, -, hlt, hreg⟩ := hkept.regs j hj
      refine if_neg fun h => ?_
      rw [hreg] at h
      cases h.1
      exact absurd hlt (Nat.not_lt_of_le hy)
    · refine if_neg fun h => ?_
      rw [hdropped r (hsafe.slots.output_held h)] at h
      cases h
  -- a living value of the run has an indirect value that points at it
  have hpointed : ∀ y, heap.next ≤ y → 0 < s.sh.heap.refs y →
      ∃ i, (s.sh.heap.cell i).mValue = some y := by
    intro y hy hpos
    rw [references_at_rest hwf hstart hc hargs hr hrest y, hhandles y hy, hholding y hy, Nat.add_zero,
      Nat.zero_add] at hpos
    obtain ⟨i, hi⟩ := Finset.card_pos.mp hpos
    exact ⟨i, (Finset.mem_filter.mp hi).2⟩
  obtain ⟨i, hi⟩ := hpointed x hx hlive
  obtain ⟨hkind, -, hpos, -, -, -⟩ := hsafe.counted.counts.wf.points i x hi
  refine ⟨i, Nat.lt_of_not_le fun hle => ?_, hi⟩
  -- nothing points at an indirect value
  obtain ⟨i', hi'⟩ := hpointed i hle hpos
  obtain ⟨-, -, -, hconcrete, -, -⟩ := hsafe.counted.counts.wf.points i' i hi'
  rw [hkind] at hconcrete
  cases hconcrete

/-- The caller drops the only entry of `results`, and the value of `f` is destroyed. -/
theorem no_leak_chain : ∃ s, after chainGraph 0 [readyValue] (chainExecute 17 ++ [.dropResult 1]) = some s ∧
    s.AtRest ∧ s.sh.heap.refs 1 = 0 := by
  obtain ⟨s₁, hs₁, hdel⟩ : ∃ s, after chainGraph 0 [readyValue] (chainExecute 17) = some s ∧
      (s.sh.regs 1).delivered ≠ none := exists_after rfl
  obtain ⟨s, hs, hdone, hav, hdropped, hmade⟩ : ∃ s,
      after chainGraph 0 [readyValue] (chainExecute 17 ++ [.dropResult 1]) = some s ∧ (s.Done ∧
        (∀ a, a < s.sh.heap.next → s.sh.heap.isAvailable a = true) ∧ s.sh.results 1 = .dropped ∧
        ∀ i, i < 2 → (s.sh.heap.cell i).mValue ≠ some 1) := exists_after rfl
  have hstep : step chainGraph 0 s₁ (.dropResult 1) = some s := by
    have h := hs
    rw [after, runLabels_append, show runLabels _ _ (chainExecute 17) = some s₁ from hs₁] at h
    simpa [runLabels] using h
  have hcall := caller_argumentHeap chainGraph 0 [readyValue] rfl
  have hr : (callSys chainGraph 0 [readyValue]).Reach DropsDelivered s := by
    refine .step (reach_after_kept (chainExecute 17) (chainExecute_kept 17) hs₁) (fun r h => ?_) hstep
    cases h
    exact hdel
  have hrest := hdone.atRest
    (Safe.reach (wired_build wellFormed_chainNodes.unique rfl) hcall hr) hav
  refine ⟨s, hs, hrest, Nat.eq_zero_of_not_pos fun hpos => ?_⟩
  have hone : ∀ r ∈ chainGraph.resultRegs, s.sh.results r = .dropped := by
    intro r hmem
    have : r ∈ [1] := hmem
    rw [List.mem_singleton.mp this, hdropped]
  obtain ⟨i, hi, hval⟩ := no_leak wellFormed_chainNodes rfl hcall (by decide) hr hrest hone
    (x := 1) (Nat.le_refl 1) hpos
  exact hmade i (Nat.lt_succ_of_lt hi) hval

end Theorems

end GraphExecutor

end AsyncLib
