import AsyncLib.Runtime.Completion
import AsyncLib.Runtime.Values

/-!
# A run computes the sequential evaluation

* `Honest`: the caller's available values hold what their state says.
* `Valued.reach`: in every run whose kernels are functions, what registers hold has the value of the
  sequential evaluation.
* `results_eq_seqEval`: so have the entries of `results`, in every schedule, and when nothing is left
  to do all of them are there.
-/

namespace AsyncLib

namespace GraphExecutor

open AsyncValue Sys Agenda AsyncGraph

variable {F V E : Type} {g : AsyncGraph F} {start : Nat}

/-- An available concrete value holds a payload or a diagnostic, as its state says. -/
def Honest (h : Heap V E Closure) : Prop := ∀ a, a < h.next → h.isAvailable a = true →
  (h.cell a).mKind = .kConcrete → ∃ o, (h.cell a).out = some o ∧ (h.cell a).state = stateOf o

/-- A run in which the caller drops delivered results only and the kernels compute `eval`. -/
def Functional (eval : F → List V → List (Except E V)) (g : AsyncGraph F) (s : St V E)
    (l : Label V E) : Prop := DropsDelivered s l ∧ Computes eval g s l

/-! ## The start of a run -/

section Start

variable {handles : Addr → Nat} {heap : Heap V E Closure} {promised : Addr → Bool}
  {arguments : List Addr} {spec : Nat → Option (Except E V)}
  {eval : F → List V → List (Except E V)}

/-- The values that are available to the caller. -/
def callerMeans (h : Heap V E Closure) (a : Nat) : Option (Except E V) :=
  if a < h.next then h.value a else none

/-- What an available value of the caller means. -/
theorem callerMeans_eq {h : Heap V E Closure} (hh : Honest h) {a : Nat} {o : Except E V}
    (ha : callerMeans h a = some o) : a < h.next ∧ h.isAvailable a = true ∧
      (((h.cell a).mKind = .kConcrete ∧ (h.cell a).out = some o ∧ (h.cell a).state = stateOf o) ∨
        ((h.cell a).mKind = .kIndirect ∧ ∃ t, (h.cell a).mValue = some t ∧ (h.cell t).out = some o)) := by
  unfold callerMeans at ha
  split at ha
  · rename_i hlt
    unfold Heap.value at ha
    split at ha
    · rename_i hav
      refine ⟨hlt, hav, ?_⟩
      cases hk : (h.cell a).mKind with
      | kConcrete =>
        rw [hk] at ha
        obtain ⟨x, hx, hst⟩ := hh a hlt hav hk
        have hxo : x = o := Option.some.inj (hx.symm.trans ha)
        exact .inl ⟨rfl, ha, hxo ▸ hst⟩
      | kIndirect =>
        rw [hk] at ha
        obtain ⟨t, ht, hto⟩ := Option.bind_eq_some_iff.mp ha
        exact .inr ⟨rfl, t, ht, hto⟩
    · cases ha
  · cases ha

theorem means_callerMeans {h : Heap V E Closure} {X : Addr → Nat} (hk : h.Ok Closure.refs X)
    (hh : Honest h) : Means h (callerMeans h) where
  bound a o ha := (callerMeans_eq hh ha).1
  out a o ha := by
    obtain ⟨-, hav, ⟨-, h1, -⟩ | ⟨h1, -⟩⟩ := callerMeans_eq hh ha
    · exact .inl h1
    · exact .inr ⟨h1, .inl hav⟩
  points i t o hi ht := by
    obtain ⟨hki, hav, hpos, hkt, hst, -⟩ := hk.wf.points i t ht
    obtain ⟨-, -, ⟨h1, -⟩ | ⟨-, t', ht', hout⟩⟩ := callerMeans_eq hh hi
    · rw [hki] at h1
      cases h1
    · rw [ht] at ht'
      cases ht'
      have hlt := hk.wf.lt_next (hk.pos_of_points ht).1
      have havt : h.isAvailable t = true := by rw [Heap.isAvailable, hst]; exact hav
      rw [callerMeans, if_pos hlt, Heap.value, if_pos havt, hkt]
      exact hout
  state a o ha hav := by
    obtain ⟨-, -, ⟨-, -, h1⟩ | ⟨h1, t, ht, hout⟩⟩ := callerMeans_eq hh ha
    · exact h1
    · obtain ⟨-, -, -, hkt, hst, -⟩ := hk.wf.points a t ht
      have hlt := hk.wf.lt_next (hk.pos_of_points ht).1
      have havt : h.isAvailable t = true := by rw [Heap.isAvailable, hst]; exact hav
      obtain ⟨x, hx, hsx⟩ := hh t hlt havt hkt
      rw [hout] at hx
      cases hx
      rw [← hst]
      exact hsx

/-- An available argument has a meaning. -/
theorem callerMeans_isSome {h : Heap V E Closure} {X : Addr → Nat} (hk : h.Ok Closure.refs X)
    (hh : Honest h) {a : Nat} (hpos : 0 < h.refs a) (hav : h.isAvailable a = true) :
    ∃ o, callerMeans h a = some o := by
  have hlt := hk.wf.lt_next hpos
  rw [callerMeans, if_pos hlt, Heap.value, if_pos hav]
  cases hkind : (h.cell a).mKind with
  | kConcrete =>
    obtain ⟨o, ho, -⟩ := hh a hlt hav hkind
    exact ⟨o, ho⟩
  | kIndirect =>
    cases hm : (h.cell a).mValue with
    | none => exact absurd hm (hk.wf.resolved a hkind hav hpos)
    | some t =>
      obtain ⟨-, -, -, hkt, hst, -⟩ := hk.wf.points a t hm
      have havt : h.isAvailable t = true := by rw [Heap.isAvailable, hst]; exact hav
      obtain ⟨o, ho, -⟩ := hh t (hk.wf.lt_next (hk.pos_of_points hm).1) havt hkt
      exact ⟨o, ho⟩

theorem Caller.valued (hw : g.Wired start) (hc : Caller g start handles heap promised arguments)
    (hh : Honest heap) (hargs : ∀ a ∈ arguments.take (g.numResults start), heap.isAvailable a = true)
    (hsp : Specified g start eval arguments heap.value spec) :
    ∃ M, Valued g spec (init g start heap promised arguments).sh
      ((init g start heap promised arguments).agenda start) M := by
  have hl := hc.initialized hw
  have hcell : ∀ b, (init g start heap promised arguments).sh.heap.cell b =
      { heap.cell b with mRefCount := (init g start heap promised arguments).sh.heap.refs b } :=
    hl.cell
  have hnext : (init g start heap promised arguments).sh.heap.next = heap.next := hl.next
  have hav : ∀ b, (init g start heap promised arguments).sh.heap.isAvailable b =
      heap.isAvailable b := fun b => by rw [Heap.isAvailable, hcell]; rfl
  have hmeans := means_callerMeans hc.counts hh
  -- the argument of a start register
  have hreg : ∀ r, (init g start heap promised arguments).sh.regs r ≠ .empty →
      ∃ a o, (init g start heap promised arguments).sh.regs r = .direct a ∧
        callerMeans heap a = some o ∧ spec r = some o ∧ heap.isAvailable a = true := by
    intro r hr
    have hmem : r ∈ g.resultsIndex start := by
      by_contra hno
      exact hr (hl.mem_start.2 hno)
    obtain ⟨j, hj, rfl⟩ := mem_resultsIndex.mp hmem
    obtain ⟨a, ha, hra⟩ := hl.filled j hj
    have htake : a ∈ arguments.take (g.numResults start) :=
      List.mem_of_getElem? (by rw [List.getElem?_take_of_lt hj]; exact ha)
    have hpos : 0 < heap.refs a := hc.counts.pos (by
      have := List.count_pos_iff.mpr htake
      simp only [Pi.add_apply]
      omega)
    have hava := hargs a htake
    obtain ⟨o, ho⟩ := callerMeans_isSome hc.counts hh hpos hava
    refine ⟨a, o, hra, ho, ?_, hava⟩
    rw [hsp.argument j hj, ha, Option.bind_some]
    rw [callerMeans, if_pos (hc.counts.wf.lt_next hpos)] at ho
    exact ho
  refine ⟨callerMeans heap, ?_, fun op hop => ?_, fun r a ha => ?_, fun r v hv => ?_⟩
  · refine hmeans.frame ⟨Nat.le_of_eq hnext.symm, fun a _ => by rw [hcell], fun a _ => by rw [hcell],
      fun a _ _ => by rw [hcell]⟩ (fun i t _ hm => ?_) fun b _ hb => ?_
    · rw [hcell] at hm
      exact hm
    · rw [hav] at hb
      exact hb
  · rcases hc.mem_agenda hw hop with h | h
    · rcases mem_mainFrame h with ⟨j, -, rfl⟩ | rfl | ⟨r, -, rfl⟩ | rfl <;> trivial
    · obtain ⟨i, v, rfl, -⟩ := hc.mem_waitingOps h
      intro o ho
      have hun := (hc.resolving hw).unavailable_forward (.forwardTo i v) hop (a := i)
        (by simp [Op.forwards])
      rw [hav, (callerMeans_eq hh ho).2.1] at hun
      cases hun
  · obtain ⟨b, o, hb, hM, hs, -⟩ := hreg r fun he => by rw [he] at ha; cases ha
    rw [hb] at ha
    cases ha
    rw [hM, hs]
  · obtain ⟨b, o, hb, hM, hs, hav'⟩ := hreg r fun he => by rw [he] at hv; cases hv
    rw [hb] at hv
    cases hv
    exact ⟨⟨o, hM, hs⟩, .inr (by rw [hav]; exact hav')⟩

theorem Caller.forwarding (hw : g.Wired start)
    (hc : Caller g start handles heap promised arguments) :
    Forwarding (init g start heap promised arguments).sh
      ((init g start heap promised arguments).agenda start) := by
  have hl := hc.initialized hw
  have hcell : ∀ b, (init g start heap promised arguments).sh.heap.cell b =
      { heap.cell b with mRefCount := (init g start heap promised arguments).sh.heap.refs b } :=
    hl.cell
  refine ⟨fun r i v hv => ?_, fun a i v hm => ?_⟩
  · by_cases hr : r ∈ g.resultsIndex start
    · obtain ⟨a, ha⟩ := hl.mem_start.1 hr
      rw [show (init g start heap promised arguments).sh.regs r = .direct a from ha] at hv
      cases hv
    · rw [show (init g start heap promised arguments).sh.regs r = .empty from hl.mem_start.2 hr]
        at hv
      cases hv
  · rw [hcell] at hm
    obtain ⟨i', he, -⟩ := hc.waiters a _ hm
    cases he
    rfl

end Start

/-! ## All runs -/

section Runs

variable {rank : Nat → Nat} {handles : Addr → Nat} {heap : Heap V E Closure}
  {promised : Addr → Bool} {arguments : List Addr} {spec : Nat → Option (Except E V)}
  {eval : F → List V → List (Except E V)} {s s' : St V E} {l : Label V E}

theorem Valued.step {α : Type} {args : List α} {value : α → Option (Except E V)}
    (hsp : Specified g start eval args value spec) (hsafe : Safe g start handles s)
    (hready : Ready g start s.sh s.running)
    (h : ∃ M, Valued g spec s.sh (s.agenda start) M) (hs : GraphExecutor.step g start s l = some s')
    (hok : Functional eval g s l) : ∃ M, Valued g spec s'.sh (s'.agenda start) M := by
  obtain ⟨M, h⟩ := h
  obtain ⟨old, new, net, R, Q, hd, h1, h2, h3, h4, hcall⟩ := hsafe.does hs hok.1
  rw [h4]
  refine Valued.preserved hd (h3 ▸ hsafe.flow) (h3 ▸ hsafe.slots) (h3 ▸ hsafe.resolving)
    (h1 ▸ hsafe.counted) (fun op hop => hready.ops op (by rw [h1]; simp [hop])) hsp
    (fun k args' he => ?_) (h3 ▸ h)
  obtain ⟨t, c, rfl, hnext, hk⟩ := hcall k args' he
  exact ⟨c.outcome, fun n vals hn hv => hok.2 t c k args' n vals rfl hnext hn hv, hk⟩

/-- What registers hold has the value of the sequential evaluation. -/
theorem Valued.reach (hr : g.Runnable start rank)
    (hc : Caller g start handles heap promised arguments) (hh : Honest heap)
    (hpos : 0 < g.numResults start)
    (hargs : ∀ a ∈ arguments.take (g.numResults start), heap.isAvailable a = true)
    (hsp : Specified g start eval arguments heap.value spec)
    (hs : (sys g start heap promised arguments).Reach (Functional eval g) s) :
    ∃ M, Valued g spec s.sh (s.agenda start) M := by
  have hfirst : g.getNextUsedBys start 0 ≠ [] →
      ∀ a, arguments[0]? = some a → heap.isAvailable a = true := fun _ a ha =>
    hargs a (List.mem_of_getElem? (by rw [List.getElem?_take_of_lt hpos]; exact ha))
  refine hs.invariant_of (I := fun s => ∃ M, Valued g spec s.sh (s.agenda start) M)
    (J := fun s => Safe g start handles s ∧ Ready g start s.sh s.running) (fun s h => ?_)
    (fun s h => ?_) fun s l s' hJ h hok hn => Valued.step hsp hJ.1 hJ.2 h hn hok
  · have h' := h.mono fun _ _ hok => hok.1
    exact ⟨Safe.reach hr.toWired hc h', Ready.reach hr hc hfirst h'⟩
  · rw [show s = init g start heap promised arguments from h]
    exact hc.valued hr.toWired hh hargs hsp

/-- Forwarding in every run. -/
theorem Forwarding.reach (hw : g.Wired start)
    (hc : Caller g start handles heap promised arguments)
    (hs : (sys g start heap promised arguments).Reach DropsDelivered s) :
    Forwarding s.sh (s.agenda start) := by
  refine hs.invariant_of (I := fun s => Forwarding s.sh (s.agenda start))
    (J := fun s => Safe g start handles s) (fun s h => Safe.reach hw hc h) (fun s h => ?_)
    fun s l s' hsafe h hok hn => ?_
  · rw [show s = init g start heap promised arguments from h]
    exact hc.forwarding hw
  · obtain ⟨old, new, net, R, Q, hd, -, -, h3, h4, -⟩ := hsafe.does hn hok
    rw [h4]
    exact Forwarding.preserved hd (h3 ▸ hsafe.slots) (h3 ▸ hsafe.resolving) (h3 ▸ h)

/-- A slot that holds a value keeps it alive. -/
theorem Safe.pos_held (hsafe : Safe g start handles s) {r : Nat} {a : Addr}
    (h : s.sh.results r = .held a) : 0 < s.sh.heap.refs a := by
  have hptr := hsafe.slots.held r a h
  have hne : s.sh.regs r ≠ .empty := fun he => by rw [he] at hptr; cases hptr
  refine hsafe.counted.pos_entry (hsafe.slots.inRange r hne) ?_
  simp only [entryRefs, hptr, h, slotRefs, entryBase, Option.elim_some, Pi.add_apply,
    Pi.single_eq_same, reduceCtorEq, ↓reduceIte]
  split
  · omega
  · simp

/-- An available entry of `results` has the value of its register. -/
theorem Valued.held {M : Addr → Option (Except E V)} (h : Valued g spec s.sh (s.agenda start) M)
    (hsafe : Safe g start handles s) {r : Nat} {a : Addr} (hheld : s.sh.results r = .held a)
    (hav : s.sh.heap.isAvailable a = true) : s.sh.heap.value a = spec r := by
  have hptr := hsafe.slots.held r a hheld
  have hM := h.pointer r a hptr
  have hspec : ∃ o, spec r = some o := by
    cases hreg : s.sh.regs r with
    | empty => rw [hreg] at hptr; cases hptr
    | installed i =>
      rw [hreg] at hptr
      cases hptr
      have := hsafe.resolving.unavailable_installed hsafe.slots hreg
      rw [hav] at this
      cases this
    | forwarded i v =>
      obtain ⟨⟨o, -, ho⟩, -⟩ := h.delivered r v (by rw [hreg]; rfl)
      exact ⟨o, ho⟩
    | direct v =>
      obtain ⟨⟨o, -, ho⟩, -⟩ := h.delivered r v (by rw [hreg]; rfl)
      exact ⟨o, ho⟩
  obtain ⟨o, ho⟩ := hspec
  rw [ho]
  exact h.means.value hsafe.counted.counts.wf (hM.trans ho) hav (hsafe.pos_held hheld)

/-! ## The end of a run -/

/-- When nothing is left to do, every register that a kernel produces was delivered. -/
theorem St.Done.delivered (hr : g.Runnable start rank) (hdone : s.Done)
    (hsafe : Safe g start handles s) (hready : Ready g start s.sh s.running)
    (hargs : ∀ j, j < g.numResults start → ∃ a, s.sh.regs (g.resultReg start j) = .direct a ∧
      s.sh.heap.isAvailable a = true) {k j : Nat} (hj : j < g.numResults k) :
    (s.sh.regs (g.resultReg k j)).delivered ≠ none := by
  have hset := hdone.settled
  have hlog : unlogged g s.sh.log (resultsOf g start (g.resultReg k j)) = 0 := by
    refine Finset.sum_eq_zero fun k' hk' => ?_
    obtain ⟨hlt, hnot⟩ := Finset.mem_filter.mp hk'
    rw [resultsOf]
    split
    · rfl
    · rename_i hne
      have hcount := hset.processed hr hsafe hready hargs ⟨hne, Finset.mem_range.mp hlt⟩
      exact absurd (List.count_pos_iff.mp (by omega)) hnot
  have hops : weight (Op.delivery g) (s.agenda start) (g.resultReg k j) = 0 := by
    refine weight_eq_zero fun op hop => ?_
    rcases Multiset.mem_add.mp hop with h | h
    · rw [hdone.running] at h
      cases h
    · obtain ⟨i, v, rfl⟩ := hset.waiting hsafe hready hargs h
      rfl
  have hdel := hsafe.flow.delivery (g.resultReg k j)
  rw [deliveries, hlog, hops, produces_eq hr.toWired hj, isDelivered] at hdel
  intro hnone
  rw [hnone] at hdel
  cases hdel

/-- When nothing is left to do, what `results` holds is available. -/
theorem Valued.available {M : Addr → Option (Except E V)}
    (h : Valued g spec s.sh (s.agenda start) M) (hdone : s.Done) (hsafe : Safe g start handles s)
    (hfwd : Forwarding s.sh (s.agenda start)) {r : Nat} {a : Addr} (hdel : (s.sh.regs r).delivered ≠ none)
    (hptr : (s.sh.regs r).ptr = some a) : s.sh.heap.isAvailable a = true := by
  have harrived : ∀ v, (s.sh.regs r).delivered = some v → s.sh.heap.isAvailable v = true := by
    intro v hv
    rcases (h.delivered r v hv).2 with h1 | h1
    · exact hdone.resolved v h1
    · exact h1
  cases hreg : s.sh.regs r with
  | empty => rw [hreg] at hptr; cases hptr
  | installed i => rw [hreg] at hdel; exact absurd rfl hdel
  | direct v =>
    rw [hreg] at hptr
    cases hptr
    exact harrived _ (by rw [hreg]; rfl)
  | forwarded i v =>
    rw [hreg] at hptr
    cases hptr
    have hag : s.agenda start = waitingOps start s.sh.heap := by
      rw [St.agenda, hdone.running, zero_add]
    exact (hag ▸ hfwd).available hsafe.counted.counts.wf hreg (harrived v (by rw [hreg]; rfl))

end Runs

/-! ## Outputs -/

section Theorems

variable {nodes : List (AsyncNode F)} {order : HashOrder} {handles : Addr → Nat}
  {heap : Heap V E Closure} {promised : Addr → Bool} {arguments : List Addr}

/-- An output name and its register. -/
theorem output_reg {i r : Nat} {name : String}
    (hn : (build order nodes).mOutputNames[i]? = some name)
    (hr : (build order nodes).resultRegs[i]? = some r) :
    (name, r) ∈ (build order nodes).mNameAndAsyncIdPair := by
  have hn' : (((build order nodes).mNameAndAsyncIdPair.filter fun p =>
      (build order nodes).userCount p.2 == 0).map Prod.fst)[i]? = some name := hn
  have hr' : (((build order nodes).mNameAndAsyncIdPair.filter fun p =>
      (build order nodes).userCount p.2 == 0).map Prod.snd)[i]? = some r := hr
  rw [List.getElem?_map] at hn' hr'
  obtain ⟨p, hp, rfl⟩ := Option.map_eq_some_iff.mp hn'
  obtain ⟨q, hq, rfl⟩ := Option.map_eq_some_iff.mp hr'
  rw [hp] at hq
  cases hq
  exact List.mem_of_mem_filter (List.mem_of_getElem? hp)

/-- Every output register has its turn in `Execute`. -/
theorem mem_taken {r : Nat} (hr : r ∈ (build order nodes).resultRegs) :
    r ∈ (build order nodes).resultRegs.take (build order nodes).mOutputNames.length := by
  have hlen : (build order nodes).resultRegs.length = (build order nodes).mOutputNames.length := by
    show (List.map _ _).length = ([] ++ List.map _ _).length
    rw [List.nil_append, List.length_map, List.length_map]
    rfl
  rw [← hlen, List.take_length]
  exact hr

/-- A name of a well-formed graph is a result. -/
theorem WellFormed.produced (hwf : WellFormed nodes) {name : String} {r : Nat}
    (h : (name, r) ∈ (build order nodes).mNameAndAsyncIdPair) :
    ∃ k j, j < (build order nodes).numResults k ∧ (build order nodes).resultReg k j = r := by
  have hout : ∃ n ∈ nodes, name ∈ n.mOutputNames := by
    rcases mem_keys.mp (List.mem_map.mpr ⟨(name, r), h, rfl⟩) with ⟨n, hn, hx⟩ | h1
    · exact List.mem_flatMap.mp (hwf.unique.produced n hn name hx)
    · exact h1
  obtain ⟨n, hn, hx⟩ := hout
  obtain ⟨k, hk⟩ := List.mem_iff_getElem?.mp hn
  obtain ⟨j, hj⟩ := List.mem_iff_getElem?.mp hx
  have hlt : j < (build order nodes).numResults k := by
    rw [numResults, resultsIndex, List.length_map]
    show j < (nodes[k]?.elim [] AsyncNode.mOutputNames).length
    rw [hk]
    exact (List.getElem?_eq_some_iff.mp hj).1
  obtain ⟨n', x, hn', hx', hreg, -⟩ := result_name hlt
  rw [hk] at hn'
  cases hn'
  rw [hj] at hx'
  cases hx'
  exact ⟨k, j, hlt, by rw [hreg, asyncId_of_mem h]⟩

/-- **Whatever the schedule, an available entry of `results` has the value of its name in the
sequential evaluation, and when nothing is left to do every entry that the caller has not dropped is
there and available.** So two schedules give the same results. -/
theorem results_eq_seqEval (hwf : WellFormed nodes)
    (hs : (build order nodes).startNode = some start)
    (hc : Caller (build order nodes) start handles heap promised arguments) (hh : Honest heap)
    (hargs : ∀ a ∈ arguments.take ((build order nodes).numResults start),
      heap.isAvailable a = true) (eval : F → List V → List (Except E V)) :
    (∃ topo, Topological nodes start topo) ∧
    (∀ topo, Topological nodes start topo → ∀ s : St V E,
      (sys (build order nodes) start heap promised arguments).Reach
        (Functional eval (build order nodes)) s →
      ∀ (i : Nat) (name : String) (r : Nat), (build order nodes).mOutputNames[i]? = some name →
        (build order nodes).resultRegs[i]? = some r →
        (∀ a, s.sh.results r = .held a → s.sh.heap.isAvailable a = true →
          s.sh.heap.value a =
            seqEval eval nodes topo (startEnv nodes start arguments heap.value) name) ∧
        (s.Done → s.sh.results r = .dropped ∨
          ∃ a, s.sh.results r = .held a ∧ s.sh.heap.isAvailable a = true)) ∧
    (∀ s s' : St V E,
      (sys (build order nodes) start heap promised arguments).Reach
        (Functional eval (build order nodes)) s →
      (sys (build order nodes) start heap promised arguments).Reach
        (Functional eval (build order nodes)) s' →
      ∀ r a a', s.sh.results r = .held a → s'.sh.results r = .held a' →
        s.sh.heap.isAvailable a = true → s'.sh.heap.isAvailable a' = true →
        s.sh.heap.value a = s'.sh.heap.value a') := by
  have hrun := hwf.runnable hs
  have hpos : 0 < (build order nodes).numResults start := hwf.numResults_pos (start_lt hrun.toWired)
  have hget : ∀ j a, j < (build order nodes).numResults start → arguments[j]? = some a →
      heap.isAvailable a = true := fun j a hj ha =>
    hargs a (List.mem_of_getElem? (by rw [List.getElem?_take_of_lt hj]; exact ha))
  have hvalued := fun {topo : List Nat} (ht : Topological nodes start topo) {s : St V E}
      (hr : (sys (build order nodes) start heap promised arguments).Reach
        (Functional eval (build order nodes)) s) =>
    Valued.reach hrun hc hh hpos hargs (specified_seqEval hwf ht arguments heap.value eval) hr
  refine ⟨exists_topological hwf start, fun topo ht s hr i name r hname hreg => ?_,
    fun s s' hr hr' r a a' ha ha' hav hav' => ?_⟩
  · have hr' := hr.mono fun _ _ hok => hok.1
    have hsafe := Safe.reach hrun.toWired hc hr'
    obtain ⟨M, hv⟩ := hvalued ht hr
    have hmem := output_reg hname hreg
    refine ⟨fun a ha hav => ?_, fun hdone => ?_⟩
    · rw [hv.held hsafe ha hav, regValue_of_mem hmem]
    · have hready := Ready.reach hrun hc (fun _ a ha => hget 0 a hpos ha) hr'
      have hkept := Kept.reach hrun.toWired hc hr'
      have hstart : ∀ j, j < (build order nodes).numResults start →
          ∃ a, s.sh.regs ((build order nodes).resultReg start j) = .direct a ∧
            s.sh.heap.isAvailable a = true := by
        intro j hj
        obtain ⟨a, ha, hlt, hra⟩ := hkept.regs j hj
        exact ⟨a, hra, hkept.grows.isAvailable hlt (hget j a hj ha)⟩
      obtain ⟨k, j, hj, rfl⟩ := WellFormed.produced hwf hmem
      have hdel := hdone.delivered hrun hsafe hready hstart hj
      -- nobody is going to fill the slot any more
      have htake : weight Op.take (s.agenda start) ((build order nodes).resultReg k j) = 0 := by
        refine weight_eq_zero fun op hop => ?_
        rcases Multiset.mem_add.mp hop with h | h
        · rw [hdone.running] at h
          cases h
        · obtain ⟨x, v, rfl⟩ := hdone.settled.waiting hsafe hready hstart h
          rfl
      have hturn := hsafe.slots.turn _ (mem_taken (List.mem_of_getElem? hreg))
      rw [htake, filled] at hturn
      cases hslot : s.sh.results ((build order nodes).resultReg k j) with
      | empty => rw [hslot] at hturn; cases hturn
      | dropped => exact .inl rfl
      | held a =>
        have hfwd := Forwarding.reach hrun.toWired hc hr'
        exact .inr ⟨a, rfl, hv.available hdone hsafe hfwd hdel (hsafe.slots.held _ a hslot)⟩
  · obtain ⟨topo, ht⟩ := exists_topological hwf start
    obtain ⟨M, hv⟩ := hvalued ht hr
    obtain ⟨M', hv'⟩ := hvalued ht hr'
    rw [hv.held (Safe.reach hrun.toWired hc (hr.mono fun _ _ hok => hok.1)) ha hav,
      hv'.held (Safe.reach hrun.toWired hc (hr'.mono fun _ _ hok => hok.1)) ha' hav']

/-- A kernel that returns 5. -/
def five (_ : Unit) (_ : List Nat) : List (Except Unit Nat) := [.ok 5]

theorem honest_argumentHeap : Honest (argumentHeap [readyValue]) := by
  intro a ha hav hk
  have h0 : a = 0 := Nat.lt_one_iff.mp ha
  subst h0
  exact ⟨.ok 5, rfl, rfl⟩

/-- The kernel of `chainGraph` returns 5 in each of these steps. -/
theorem functional_chain (s : St Nat Unit) :
    Functional five chainGraph s (runReturning 0 readyValue) := by
  refine ⟨fun r h => ?_, fun t c k args n vals hl _ _ _ => ?_⟩
  · cases h
  · cases hl
    rfl

/-- At the end of a run, `results` holds 5. -/
theorem results_eq_seqEval_chain : ∃ s, after chainGraph 0 [readyValue] (chainExecute 17) = some s ∧
    s.Done ∧ ∃ a, s.sh.results 1 = .held a ∧ s.sh.heap.value a = some (.ok 5) := by
  obtain ⟨s, hs, hdone⟩ : ∃ s, after chainGraph 0 [readyValue] (chainExecute 17) = some s ∧ s.Done :=
    exists_done rfl
  have hr : (callSys chainGraph 0 [readyValue]).Reach (Functional five chainGraph) s :=
    (reach_runLabels (fun l => l = runReturning 0 readyValue) (.init rfl) (chainExecute 17)
      (fun l hl => List.eq_of_mem_replicate hl) hs).mono fun s l hl => hl ▸ functional_chain s
  obtain ⟨-, h, -⟩ := results_eq_seqEval wellFormed_chainNodes rfl
    (caller_argumentHeap chainGraph 0 [readyValue] rfl) honest_argumentHeap (by decide) five
  have htopo : Topological chainNodes 0 [1] :=
    ⟨by decide, fun k => by simp [chainNodes]; omega, List.pairwise_singleton _ _⟩
  obtain ⟨h1, h2⟩ := h [1] htopo s hr 0 "b" 1 rfl rfl
  have hslot : s.sh.results 1 ≠ .dropped := by
    have : (after chainGraph 0 [readyValue] (chainExecute 17)).any
        (fun s => decide (s.sh.results 1 ≠ .dropped)) = true := rfl
    rw [hs] at this
    exact of_decide_eq_true this
  obtain ⟨a, ha, hav⟩ := (h2 hdone).resolve_left hslot
  exact ⟨s, hs, hdone, a, ha, (h1 a ha hav).trans rfl⟩

end Theorems

end GraphExecutor

end AsyncLib
