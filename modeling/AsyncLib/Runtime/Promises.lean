import AsyncLib.Runtime.Addresses
import AsyncLib.Runtime.Ownership
import AsyncLib.Runtime.Termination

/-!
# A run that stops is complete

The threads come to rest (`Runtime/Termination.lean`). Here: when they have, and every value that a
kernel promised was resolved, nothing has been forgotten.

* `Settling`: a value that a kernel made is available, promised, or going to be forwarded to one that
  was made later. `Settling.reach`: so in every run.
* `Settling.available`: at rest, without promises, every value that a kernel returned is available. The
  chain of forwarded values ends, because each one points at a later one.
* `executor_completes`: then every kernel has been processed once and every result is there.
-/

namespace AsyncLib

namespace GraphExecutor

open AsyncValue Sys Agenda AsyncGraph

variable {F V E : Type} {g : AsyncGraph F} {start : Nat}

/-! ## Values under way -/

/-- A value that a kernel, or the work that resolves an indirect value, made after `base`. -/
def Made (base : Addr) (sh : Shared V E) (a : Addr) : Prop :=
  base ≤ a ∧ a < sh.heap.next ∧ (sh.heap.cell a).out ≠ none

/-- A kernel has returned the value, or it is available. -/
def Arriving (sh : Shared V E) (v : Addr) : Prop :=
  v < sh.heap.next ∧ (v ∈ sh.returned ∨ sh.heap.isAvailable v = true)

/-- The value that an operation delivers to a register. -/
def Op.carried : Op → List Addr
  | .processUsedBy _ _ v => [v]
  | .andThen _ _ v => [v]
  | .setAsyncValuePtr _ _ v => [v]
  | .casAsyncValuePtr _ _ v => [v]
  | .forwardExisting _ _ _ v => [v]
  | _ => []

/-- `a` is available, or going to be. -/
def Settles (base : Addr) (sh : Shared V E) (A : Multiset Op) (a : Addr) : Prop :=
  sh.heap.isAvailable a = true ∨ sh.promised a = true ∨
    ∃ v, a < v ∧ Made base sh v ∧ .forwardTo a v ∈ A

/-- The values that kernels returned arrive, and those that kernels made are settled. -/
structure Settling (base : Addr) (sh : Shared V E) (A : Multiset Op) : Prop where
  ops : ∀ op ∈ A, ∀ v ∈ op.carried, Arriving sh v
  delivered : ∀ r v, (sh.regs r).delivered = some v → Arriving sh v
  returned : ∀ v ∈ sh.returned, v < sh.heap.next ∧
    (sh.heap.isAvailable v = true ∨ Made base sh v)
  made : ∀ a, Made base sh a → Settles base sh A a

section Steps

variable {sh sh' : Shared V E} {A Q R : Multiset Op} {old new net : List Op} {base : Addr}
  {handles : Addr → Nat}

theorem Arriving.later {v : Addr} (h : Arriving sh v) (hl : Later sh sh') : Arriving sh' v :=
  ⟨Nat.lt_of_lt_of_le h.1 hl.heap.next, h.2.imp (hl.returned v) (hl.heap.isAvailable h.1)⟩

theorem Made.later {a : Addr} (h : Made base sh a) (hl : Later sh sh') : Made base sh' a :=
  ⟨h.1, Nat.lt_of_lt_of_le h.2.1 hl.heap.next, by rw [hl.heap.out a h.2.1]; exact h.2.2⟩

theorem Made.of_lt {a : Addr} (h : Made base sh' a) (hl : Later sh sh') (ha : a < sh.heap.next) :
    Made base sh a := ⟨h.1, ha, by rw [← hl.heap.out a ha]; exact h.2.2⟩

/-- The addresses after the call of a kernel. -/
theorem next_call (h : Heap V E Closure) (outs : List Addr) (fs : List (Fresh V E)) :
    (dropReady (addRefs (allocAll h fs) outs) h.next fs).next = h.next + fs.length := by
  rw [dropReady_next, addRefs_next, allocAll_next]

/-- The values in a kernel's results are kept or new. -/
theorem carried_afterCall {k : Nat} {args outs : List Addr} {op : Op}
    (hop : op ∈ afterCall k args outs) {v : Addr} (hv : v ∈ op.carried) : v ∈ outs := by
  rcases mem_afterCall hop with ⟨a, -, rfl⟩ | ⟨j, w, hw, rfl⟩
  · cases hv
  · cases List.mem_singleton.mp hv
    exact List.mem_of_getElem? hw

/-- What the new operations deliver is under way. -/
theorem Does.carried (hd : Does g start sh old sh' new net) (hl : Later sh sh')
    (hold : ∀ op ∈ old, ∀ v ∈ op.carried, Arriving sh v)
    (hsound : ∀ op ∈ old, op.Sound g start sh) (hvalid : ∀ op ∈ old, op.Valid g start) :
    ∀ op ∈ net, ∀ v ∈ op.carried, Arriving sh' v := by
  intro op hop v hv
  have hforward : ∀ {i w : Addr} {l : List Op}, (∀ x ∈ l, x.carried = []) →
      op ∈ pendingForward sh.heap i w ++ l → False := by
    intro i w l hnil hm
    rcases List.mem_append.mp hm with h | h
    · unfold pendingForward at h
      split at h
      · cases h
      · cases List.mem_singleton.mp h
        cases hv
    · rw [hnil op h] at hv
      cases hv
  cases hd with
  | @callError k args e =>
    have hmem := carried_afterCall hop hv
    cases List.eq_of_mem_replicate hmem
    have hread : Reading g sh k [] args (some v) := hsound _ List.mem_cons_self
    have hmem' : v ∈ args := (hvalid _ List.mem_cons_self).2 v rfl
    obtain ⟨r, -, hr, hav⟩ := hread.available v hmem'
    exact Arriving.later ⟨hl.bound r v (by rw [hr]; rfl), .inr hav⟩ hl
  | @call k args outs o ho hlen hb =>
    have hmem := carried_afterCall hop hv
    refine ⟨?_, .inl (List.mem_append_right _ hmem)⟩
    show v < (dropReady _ _ _).next
    rw [next_call]
    exact hb v hmem
  | @andThen k j w hw =>
    simp only [waiterCode, List.mem_cons, List.not_mem_nil, or_false] at hop
    rcases hop with rfl | rfl | rfl
    · exact (hold _ List.mem_cons_self v hv).later hl
    · cases hv
    · cases hv
  | @usedBySet k j w | @usedByWait k j w | @set k j w | @occupied k j w i hp =>
    -- the value of the operation before
    cases List.mem_singleton.mp hop
    exact (hold _ List.mem_cons_self v hv).later hl
  | forwardExisting => exact (hforward (by simp [Op.carried]) hop).elim
  | forwardTo => exact (hforward (by simp [Op.carried]) hop).elim
  | @resolveIndirect a out form ty h hp ha hk ho hh =>
    rcases List.mem_append.mp hop with hm | hm
    · unfold pendingForward at hm
      split at hm
      · cases hm
      · cases List.mem_singleton.mp hm
        cases hv
    · cases List.mem_singleton.mp hm
      cases hv
  | @load r c | @install r ind c | @discard r ind x c =>
    cases c <;> simp only [Cont.resume, List.mem_singleton, List.not_mem_nil] at hop
    cases hop
    cases hv
  | decreaseAll =>
    obtain ⟨u, -, rfl⟩ := List.mem_map.mp hop
    cases hv
  | decrease =>
    split at hop
    · cases List.mem_singleton.mp hop
      cases hv
    · cases hop
  | @readyCons k ks =>
    rcases List.mem_append.mp hop with h | h
    · obtain ⟨u, -, rfl⟩ := List.mem_map.mp h
      cases hv
    · simp only [List.mem_cons, List.not_mem_nil, or_false] at h
      rcases h with rfl | rfl <;> cases hv
  | pseudoAndThen | enqueue =>
    simp only [waiterCode, taskFrame, Frame.ops, List.map_cons, List.map_nil, List.cons_append,
      List.nil_append, List.mem_cons, List.not_mem_nil, or_false] at hop
    rcases hop with rfl | rfl | rfl <;> cases hv
  | skip | pseudoUnused | readyNil | dropRef | dropExecutor | dropResult | dropArgument => cases hop
  | _ =>
    cases List.mem_singleton.mp hop
    cases hv

/-- What a register holds is under way. -/
theorem Does.arriving (hd : Does g start sh old sh' new net) (hl : Later sh sh')
    (hold : ∀ op ∈ old, ∀ v ∈ op.carried, Arriving sh v)
    (h : ∀ r v, (sh.regs r).delivered = some v → Arriving sh v) {r : Nat} {v : Addr}
    (hv : (sh'.regs r).delivered = some v) : Arriving sh' v := by
  rcases hd.reg_change r with he | ⟨x, c, rfl, he⟩ | ⟨k, j, x, rfl, rfl, he⟩ |
    ⟨k, j, x, y, rfl, rfl, he, -⟩
  · rw [he] at hv
    exact (h r v hv).later hl
  · rw [he] at hv
    cases hv
  · rw [he] at hv
    cases hv
    exact (hold _ List.mem_cons_self _ (List.mem_singleton_self _)).later hl
  · rw [he] at hv
    cases hv
    exact (hold _ List.mem_cons_self _ (List.mem_singleton_self _)).later hl

/-- A value that the kernel made in this call. -/
theorem cell_call (h : Heap V E Closure) (outs : List Addr) (fs : List (Fresh V E)) {a : Addr}
    (h1 : h.next ≤ a) (h2 : a < h.next + fs.length) :
    ∃ f : Fresh V E, fs[a - h.next]? = some f ∧
      ((dropReady (addRefs (allocAll h fs) outs) h.next fs).cell a).out = some f.out ∧
      ((dropReady (addRefs (allocAll h fs) outs) h.next fs).cell a).state =
        (f.cell 1 : Cell V E Closure).state := by
  have hlt : a - h.next < fs.length := Nat.sub_lt_left_of_lt_add h1 h2
  have hf : fs[a - h.next]? = some fs[a - h.next] := List.getElem?_eq_getElem hlt
  have hnext : a < (allocAll h fs).next := by
    rw [allocAll_next]
    exact h2
  have hcell : (allocAll h fs).cell a = (fs[a - h.next]).cell 1 := by
    rw [allocAll_cell h fs h.next rfl, if_pos h1, hf]
    rfl
  refine ⟨fs[a - h.next], hf, ?_, ?_⟩
  · have hg := (grows_addRefs (allocAll h fs) outs).trans (grows_dropReady _ h.next fs)
    rw [hg.out a hnext, hcell]
    rfl
  · rw [dropReady_state, addRefs_state, hcell]

/-- A kernel returns its available arguments and values that it made. -/
theorem Does.mem_returned (hd : Does g start sh old sh' new net) (hl : Later sh sh')
    (hbase : base ≤ sh.heap.next) (hsound : ∀ op ∈ old, op.Sound g start sh)
    (h : ∀ v ∈ sh.returned, v < sh.heap.next ∧ (sh.heap.isAvailable v = true ∨ Made base sh v))
    {v : Addr} (hv : v ∈ sh'.returned) :
    v < sh'.heap.next ∧ (sh'.heap.isAvailable v = true ∨ Made base sh' v) := by
  have hkept : v ∈ sh.returned →
      v < sh'.heap.next ∧ (sh'.heap.isAvailable v = true ∨ Made base sh' v) := by
    intro hm
    obtain ⟨hlt, hor⟩ := h v hm
    exact ⟨Nat.lt_of_lt_of_le hlt hl.heap.next,
      hor.imp (hl.heap.isAvailable hlt) fun hm' => hm'.later hl⟩
  cases hd with
  | @call k args outs o ho hlen hb =>
    rcases List.mem_append.mp hv with hm | hm
    · exact hkept hm
    · have hlt : v < (dropReady (addRefs (allocAll sh.heap o.fresh) outs) sh.heap.next o.fresh).next := by
        rw [next_call]
        exact hb v hm
      refine ⟨hlt, ?_⟩
      rcases mem_outs ho v hm with harg | hnew
      · have hread : Reading g sh k [] args none := hsound _ List.mem_cons_self
        obtain ⟨r, -, hr, hav⟩ := hread.available v harg
        exact .inl (hl.heap.isAvailable (hl.bound r v (by rw [hr]; rfl)) hav)
      · obtain ⟨f, -, hout, -⟩ := cell_call sh.heap outs o.fresh hnew (hb v hm)
        refine .inr ⟨Nat.le_trans hbase hnew, hlt, ?_⟩
        show ((dropReady _ _ _).cell v).out ≠ none
        rw [hout]
        exact Option.some_ne_none _
  | @load q c w =>
    rw [(c.resume_fields sh w).2.2.2.2] at hv
    exact hkept hv
  | @install q ind c =>
    rw [(c.resume_fields _ ind).2.2.2.2] at hv
    exact hkept hv
  | @discard q ind w c =>
    rw [(c.resume_fields _ w).2.2.2.2] at hv
    exact hkept hv
  | _ => exact hkept hv

/-- A promise is kept, or the value becomes available or is going to be forwarded. -/
theorem Does.promise (hd : Does g start sh old sh' new net) (hbase : base ≤ sh.heap.next) {a : Addr}
    (hlt : a < sh.heap.next) (ha : sh.promised a = true) :
    sh'.heap.isAvailable a = true ∨ sh'.promised a = true ∨
      ∃ v, a < v ∧ Made base sh' v ∧ .forwardTo a v ∈ net := by
  cases hd with
  | @call k args outs o =>
    refine .inr (.inl ?_)
    show (sh.promised a || promises sh.heap.next o.fresh a) = true
    rw [ha, Bool.true_or]
  | @load q c w => exact .inr (.inl (by rw [(c.resume_fields sh w).2.2.2.1]; exact ha))
  | @install q ind c => exact .inr (.inl (by rw [(c.resume_fields _ ind).2.2.2.1]; exact ha))
  | @discard q ind w c => exact .inr (.inl (by rw [(c.resume_fields _ w).2.2.2.1]; exact ha))
  | @resolveConcrete b out hp hb hk ho =>
    by_cases hab : a = b
    · left
      rw [hab, Heap.isAvailable, Heap.notifyAvailable_cell, if_pos rfl]
      cases out <;> rfl
    · exact .inr (.inl ((Function.update_of_ne hab _ _).trans ha))
  | @resolveIndirect b out form ty h hp hb hk ho hh =>
    by_cases hab : a = b
    · subst hab
      rcases available_or_pending (h := h) a sh.heap.next with hav | hpend
      · exact .inl hav
      · refine .inr (.inr ⟨sh.heap.next, hb, ⟨hbase, ?_, ?_⟩, List.mem_append_left _ hpend⟩)
        · show sh.heap.next < (h.forwardTo a sh.heap.next).1.next
          rw [Heap.forwardTo_next, hh]
          exact Nat.lt_succ_self _
        · show ((h.forwardTo a sh.heap.next).1.cell sh.heap.next).out ≠ none
          rw [Heap.forwardTo_out, hh, Heap.alloc_cell, if_pos rfl]
          exact Option.some_ne_none _
    · refine .inr (.inl ?_)
      show Function.update (Function.update sh.promised b false) sh.heap.next _ a = true
      rw [Function.update_of_ne (Nat.ne_of_lt hlt), Function.update_of_ne hab]
      exact ha
  | _ => exact .inr (.inl ha)

/-- A value that the step has made is available or promised. -/
theorem Does.made (hd : Does g start sh old sh' new net) {a : Addr} (ha : sh.heap.next ≤ a)
    (hm : Made base sh' a) : sh'.heap.isAvailable a = true ∨ sh'.promised a = true := by
  have hlt := hm.2.1
  have hnone : sh'.heap.next = sh.heap.next → sh'.heap.isAvailable a = true ∨ sh'.promised a = true :=
    fun he => absurd (he ▸ hlt) (Nat.not_lt.mpr ha)
  -- a new value is available or promised, as its form says
  have hfresh : ∀ (f : Fresh V E) (n : Nat), f.form = .ready →
      (f.cell n : Cell V E Closure).state.isAvailable = true := by
    intro f n hf
    simp only [Fresh.cell, hf]
    cases f.out <;> rfl
  cases hd with
  | @call k args outs o ho hlen hb =>
    change a < (dropReady (addRefs (allocAll sh.heap o.fresh) outs) sh.heap.next o.fresh).next at hlt
    rw [next_call] at hlt
    obtain ⟨f, hf, -, hst⟩ := cell_call sh.heap outs o.fresh ha hlt
    by_cases hform : f.form = .ready
    · left
      rw [Heap.isAvailable, hst]
      exact hfresh f 1 hform
    · right
      show (sh.promised a || promises sh.heap.next o.fresh a) = true
      rw [Bool.or_eq_true]
      right
      simp [promises, ha, hf, hform]
  | @make r c hc hp =>
    have heq : a = sh.heap.next := Nat.le_antisymm (Nat.le_of_lt_succ hlt) ha
    refine absurd ?_ hm.2.2
    show ((sh.heap.alloc _).cell a).out = none
    rw [Heap.alloc_cell, if_pos heq]
    rfl
  | @resolveIndirect b out form ty h hp hb hk ho hh =>
    have hnext : (h.forwardTo b sh.heap.next).1.next = sh.heap.next + 1 := by
      rw [Heap.forwardTo_next, hh]
      rfl
    change a < (h.forwardTo b sh.heap.next).1.next at hlt
    rw [hnext] at hlt
    have heq : a = sh.heap.next := Nat.le_antisymm (Nat.le_of_lt_succ hlt) ha
    subst heq
    by_cases hform : form = .ready
    · left
      show (h.forwardTo b sh.heap.next).1.isAvailable sh.heap.next = true
      refine Heap.forwardTo_isAvailable _ _ _ _ ?_
      rw [Heap.isAvailable, hh, Heap.alloc_cell, if_pos rfl]
      exact hfresh _ _ hform
    · right
      exact (Function.update_self ..).trans (decide_eq_true hform)
  | callError => exact hnone (addRefs_next _ _)
  | @load r c v => exact hnone (by rw [c.resume_heap])
  | @install r ind c => exact hnone (by rw [c.resume_heap])
  | @discard r ind v c => exact hnone (by rw [c.resume_heap]; exact Heap.dropRef_next _)
  | pseudoAndThen | andThen => exact hnone (Heap.andThen_next _)
  | forwardExisting => exact hnone ((Heap.forwardTo_next _ _).trans (Heap.dropRef_next _))
  | forwardTo => exact hnone (Heap.forwardTo_next _ _)
  | resolveConcrete => exact hnone (Heap.notifyAvailable_next _)
  | dropRef | dropResult | dropArgument => exact hnone (Heap.dropRef_next _)
  | _ => exact hnone rfl

/-- The invariant is kept. -/
theorem Settling.preserved (hd : Does g start sh old sh' new net)
    (hf : Flow g start sh (↑old + Q)) (hs : Slots g start sh (↑old + Q))
    (hr : Resolving g sh (↑old + Q)) (hsound : ∀ op ∈ old, op.Sound g start sh)
    (hbase : base ≤ sh.heap.next) (h : Settling base sh (↑old + Q)) :
    Settling base sh' (↑net + Q) := by
  have hl := hd.later hs hr
  have hold : ∀ op ∈ old, op ∈ (↑old + Q : Multiset Op) := fun op hop =>
    Multiset.mem_add.mpr (.inl (Multiset.mem_coe.mpr hop))
  have hcarried : ∀ op ∈ old, ∀ v ∈ op.carried, Arriving sh v := fun op hop =>
    h.ops op (hold op hop)
  refine ⟨fun op hop v hv => ?_, fun r v => hd.arriving hl hcarried h.delivered,
    fun v => hd.mem_returned hl hbase hsound h.returned, fun a ha => ?_⟩
  · rcases Multiset.mem_add.mp hop with hm | hm
    · exact hd.carried hl hcarried hsound (fun op hop => hf.valid op (hold op hop)) op
        (Multiset.mem_coe.mp hm) v hv
    · exact (h.ops op (Multiset.mem_add.mpr (.inr hm)) v hv).later hl
  · rcases Nat.lt_or_ge a sh.heap.next with hlt | hge
    · rcases h.made a (ha.of_lt hl hlt) with hav | hp | ⟨v, hav, hv, hm⟩
      · exact .inl (hl.heap.isAvailable hlt hav)
      · exact (hd.promise hbase hlt hp).imp_right fun h' => h'.imp_right fun ⟨v, h1, h2, h3⟩ =>
          ⟨v, h1, h2, Multiset.mem_add.mpr (.inl (Multiset.mem_coe.mpr h3))⟩
      · exact (hd.pending hl hlt (.inr hm)).imp_right fun h' => .inr ⟨v, hav, hv.later hl, h'⟩
    · exact (hd.made hge ha).imp_right .inl

/-- At rest, without promises, what kernels returned is available: a value that is not would have to
wait for a later one, and the last of them for nothing. -/
theorem Settling.available (h : Settling base sh (waitingOps start sh.heap)) (hw : sh.heap.Wf)
    (hwait : ∀ a i v, .forward i v ∈ (sh.heap.cell a).waiters → a = v)
    (hnone : ∀ a, base ≤ a → sh.promised a = false) {a : Addr} (ha : Made base sh a) :
    sh.heap.isAvailable a = true := by
  -- by induction on the number of later values
  induction hd : sh.heap.next - a using Nat.strong_induction_on generalizing a with
  | _ d ih =>
    rcases h.made a ha with hav | hp | ⟨v, hlt, hv, hop⟩
    · exact hav
    · rw [hnone a ha.1] at hp
      cases hp
    · have hvav := ih (sh.heap.next - v) (by have := hv.2.1; have := ha.2.1; grind) hv rfl
      obtain ⟨b, -, w, hmem, hcode⟩ := mem_waitingOps.mp hop
      match w with
      | .forward i' v' =>
        cases List.mem_singleton.mp hcode
        have hb := hwait b a v hmem
        subst hb
        rw [hw.quiet b hvav] at hmem
        cases hmem
      | .client (.setAndDecrease k j x) => simp [waiterCode] at hcode
      | .client (.decrease j) => simp [waiterCode] at hcode

/-- Then what a register holds is available once something was delivered to it. -/
theorem Settling.available_ptr (h : Settling base sh A) (hfwd : Forwarding sh (waitingOps start sh.heap))
    (hw : sh.heap.Wf) (hresolved : ∀ a ∈ sh.returned, sh.heap.isAvailable a = true) {r : Nat}
    {a : Addr} (hdel : (sh.regs r).delivered ≠ none) (hptr : (sh.regs r).ptr = some a) :
    sh.heap.isAvailable a = true := by
  have harrived : ∀ v, (sh.regs r).delivered = some v → sh.heap.isAvailable v = true :=
    fun v hv => (h.delivered r v hv).2.elim (hresolved v) id
  cases hreg : sh.regs r with
  | empty =>
    rw [hreg] at hptr
    cases hptr
  | installed i =>
    rw [hreg] at hdel
    exact absurd rfl hdel
  | direct v =>
    rw [hreg] at hptr
    cases hptr
    exact harrived _ (by rw [hreg]; rfl)
  | forwarded i v =>
    rw [hreg] at hptr
    cases hptr
    exact hfwd.available hw hreg (harrived v (by rw [hreg]; rfl))

end Steps

/-! ## All runs -/

section Runs

variable {rank : Nat → Nat} {handles : Addr → Nat} {heap : Heap V E Closure} {promised : Addr → Bool}
  {arguments : List Addr} {s : St V E}

theorem Caller.settling (hw : g.Wired start) (hc : Caller g start handles heap promised arguments)
    (hargs : ∀ a ∈ arguments.take (g.numResults start), heap.isAvailable a = true) :
    Settling heap.next (init g start heap promised arguments).sh
      ((init g start heap promised arguments).agenda start) := by
  have hl := hc.initialized hw
  have hnext : (init g start heap promised arguments).sh.heap.next = heap.next := hl.next
  have hcell : ∀ b, (init g start heap promised arguments).sh.heap.cell b =
      { heap.cell b with mRefCount := (init g start heap promised arguments).sh.heap.refs b } :=
    hl.cell
  refine ⟨fun op hop v hv => ?_, fun r v hv => ?_, fun v hv => ?_, fun a ha => ?_⟩
  · rcases hc.mem_agenda hw hop with h | h
    · rcases mem_mainFrame h with ⟨j, -, rfl⟩ | rfl | ⟨r, -, rfl⟩ | rfl <;> cases hv
    · obtain ⟨i, x, rfl, -⟩ := hc.mem_waitingOps h
      cases hv
  · have hmem : r ∈ g.resultsIndex start := by
      by_contra hno
      rw [show (init g start heap promised arguments).sh.regs r = .empty from hl.mem_start.2 hno] at hv
      cases hv
    obtain ⟨j, hj, rfl⟩ := mem_resultsIndex.mp hmem
    obtain ⟨a, ha, hra⟩ := hl.filled j hj
    rw [show (init g start heap promised arguments).sh.regs (g.resultReg start j) = .direct a
      from hra] at hv
    cases hv
    refine ⟨(hc.resolving hw).bound_reg (g.resultReg start j) v ?_, .inr ?_⟩
    · rw [show (init g start heap promised arguments).sh.regs (g.resultReg start j) = .direct v
        from hra]
      rfl
    · rw [Heap.isAvailable, hcell]
      exact hargs v (List.mem_of_getElem? (by rw [List.getElem?_take_of_lt hj]; exact ha))
  · cases hv
  · exact absurd ha.1 (Nat.not_le.mpr (hnext ▸ ha.2.1))

/-- In every run with available arguments, what kernels make settles. -/
theorem Settling.reach (hr : g.Runnable start rank)
    (hc : Caller g start handles heap promised arguments) (hpos : 0 < g.numResults start)
    (hargs : ∀ a ∈ arguments.take (g.numResults start), heap.isAvailable a = true)
    (hs : (sys g start heap promised arguments).Reach DropsDelivered s) :
    Settling heap.next s.sh (s.agenda start) := by
  have hfirst : g.getNextUsedBys start 0 ≠ [] →
      ∀ a, arguments[0]? = some a → heap.isAvailable a = true := fun _ a ha =>
    hargs a (List.mem_of_getElem? (by rw [List.getElem?_take_of_lt hpos]; exact ha))
  refine hs.invariant_of (I := fun s => Settling heap.next s.sh (s.agenda start))
    (J := fun s => Safe g start handles s ∧ Ready g start s.sh s.running ∧
      Kept g start heap arguments s.sh)
    (fun s h => ⟨Safe.reach hr.toWired hc h, Ready.reach hr hc hfirst h, Kept.reach hr.toWired hc h⟩)
    (fun s h => ?_) fun s l s' hJ h hok hn => ?_
  · rw [show s = init g start heap promised arguments from h]
    exact hc.settling hr.toWired hargs
  · obtain ⟨hsafe, hready, hkept⟩ := hJ
    obtain ⟨old, new, net, R, Q, hd, h1, h2, h3, h4, -⟩ := hsafe.does hn hok
    rw [h4]
    exact Settling.preserved hd (h3 ▸ hsafe.flow) (h3 ▸ hsafe.slots) (h3 ▸ hsafe.resolving)
      (fun op hop => hready.ops op (by rw [h1]; simp [hop])) hkept.grows.next (h3 ▸ h)

end Runs

section Theorems

variable {nodes : List (AsyncNode F)} {order : HashOrder} {handles : Addr → Nat}
  {heap : Heap V E Closure} {promised : Addr → Bool} {arguments : List Addr}

/-- **A run that stops is complete.** When the executor has no step left and every value that a kernel
promised has been resolved, every kernel has been processed once, every value that a kernel returned
is available, and so is every result, unless the caller has dropped it. -/
theorem executor_completes [Inhabited V] (hwf : WellFormed nodes)
    (hs : (build order nodes).startNode = some start)
    (hc : Caller (build order nodes) start handles heap promised arguments)
    (hargs : ∀ a ∈ arguments.take ((build order nodes).numResults start),
      heap.isAvailable a = true) {s : St V E}
    (hr : (sys (build order nodes) start heap promised arguments).Reach DropsDelivered s)
    (hstop : ∀ l, l.isInternal = true → step (build order nodes) start s l = none)
    (hnone : ∀ a, heap.next ≤ a → s.sh.promised a = false) :
    s.Done ∧ (∀ k, k < nodes.length → k ≠ start → s.sh.log.count k = 1) ∧
    ∀ r ∈ (build order nodes).resultRegs, s.sh.results r = .dropped ∨
      ∃ a, s.sh.results r = .held a ∧ s.sh.heap.isAvailable a = true := by
  have hrun := hwf.runnable hs
  have hpos : 0 < (build order nodes).numResults start := hwf.numResults_pos (start_lt hrun.toWired)
  have hsafe := Safe.reach hrun.toWired hc hr
  have hget : ∀ j a, j < (build order nodes).numResults start → arguments[j]? = some a →
      heap.isAvailable a = true := fun j a hj ha =>
    hargs a (List.mem_of_getElem? (by rw [List.getElem?_take_of_lt hj]; exact ha))
  have hready := Ready.reach hrun hc (fun _ a ha => hget 0 a hpos ha) hr
  have hkept := Kept.reach hrun.toWired hc hr
  have hfwd := Forwarding.reach hrun.toWired hc hr
  have hset := Settling.reach hrun hc hpos hargs hr
  have hstart : ∀ j, j < (build order nodes).numResults start →
      ∃ a, s.sh.regs ((build order nodes).resultReg start j) = .direct a ∧
        s.sh.heap.isAvailable a = true := by
    intro j hj
    obtain ⟨a, ha, hlt, hra⟩ := hkept.regs j hj
    exact ⟨a, hra, hkept.grows.isAvailable hlt (hget j a hj ha)⟩
  have hidle : s.Idle := by
    by_contra hno
    obtain ⟨l, s', hl, hn⟩ := exists_internal hsafe
      (AllFrames.reach stable_drains drains_mainFrame hr) hno
    rw [hstop l hl] at hn
    cases hn
  have hrunning : s.running = 0 := hidle.running
  have hag : s.agenda start = waitingOps start s.sh.heap := by
    rw [St.agenda, hrunning, zero_add]
  have hresolved : ∀ a ∈ s.sh.returned, s.sh.heap.isAvailable a = true := fun a ha =>
    (hset.returned a ha).2.elim id fun hm =>
      (hag ▸ hset).available hsafe.counted.counts.wf hfwd.waits hnone hm
  have hdone : s.Done := ⟨hidle.queue, hidle.threads, hresolved⟩
  refine ⟨hdone, fun k hk hne => hdone.settled.processed hrun hsafe hready hstart ⟨hne, hk⟩,
    fun r hmem => ?_⟩
  obtain ⟨p, hp, rfl⟩ := List.mem_map.mp hmem
  obtain ⟨k, j, hj, hreg⟩ := WellFormed.produced hwf (List.mem_of_mem_filter hp)
  have hdel := hdone.delivered hrun hsafe hready hstart hj
  rw [hreg] at hdel
  -- nobody is going to fill the slot any more
  have htake : weight Op.take (s.agenda start) p.2 = 0 := by
    refine weight_eq_zero fun op hop => ?_
    rw [hag] at hop
    obtain ⟨x, v, rfl⟩ := hdone.settled.waiting hsafe hready hstart hop
    rfl
  have hturn := hsafe.slots.turn p.2 (mem_taken hmem)
  rw [htake, filled] at hturn
  cases hslot : s.sh.results p.2 with
  | empty => rw [hslot] at hturn; cases hturn
  | dropped => exact .inl rfl
  | held a =>
    exact .inr ⟨a, rfl, hset.available_ptr (hag ▸ hfwd) hsafe.counted.counts.wf hresolved hdel
      (hsafe.slots.held p.2 a hslot)⟩

/-- An idle state has no step of its own. -/
theorem St.Idle.stops {g : AsyncGraph F} {s : St V E} (h : s.Idle) {l : Label V E}
    (hl : l.isInternal = true) : step g start s l = none := by
  cases l with
  | run t c =>
    cases ht : s.threads[t]? with
    | none => simp only [step, ht]
    | some st =>
      rw [h.threads st (List.mem_of_getElem? ht)] at ht
      simp only [step, ht]
  | pick k => exact if_neg (by rw [h.queue]; exact List.not_mem_nil)
  | resolve => cases hl
  | dropResult => cases hl

/-- The run in which the value of `f` is resolved at the end is complete. -/
theorem executor_completes_chain : ∃ s, after chainGraph 0 [readyValue] laterExecute = some s ∧
    s.Done ∧ ∃ a, s.sh.results 1 = .held a ∧ s.sh.heap.isAvailable a = true := by
  obtain ⟨s, hs, hidle, hkept, hnone⟩ : ∃ s, after chainGraph 0 [readyValue] laterExecute = some s ∧
      (s.Idle ∧ s.sh.results 1 ≠ .dropped ∧
        ∀ a, a < s.sh.heap.next → s.sh.promised a = false) := exists_after rfl
  have hcall := caller_argumentHeap chainGraph 0 [readyValue] rfl
  have hr := reach_after_kept laterExecute laterExecute_kept hs
  have hbound : ∀ a, s.sh.promised a = true → a < s.sh.heap.next :=
    (Safe.reach (wired_build wellFormed_chainNodes.unique rfl) hcall hr).bounded.promised
  obtain ⟨hdone, -, hres⟩ := executor_completes wellFormed_chainNodes rfl hcall (by decide) hr
    (fun l hl => hidle.stops hl) fun a _ => by
      cases hp : s.sh.promised a with
      | false => rfl
      | true => exact (hp.symm.trans (hnone a (hbound a hp)))
  exact ⟨s, hs, hdone, (hres 1 (by decide)).resolve_left hkept⟩

end Theorems

end GraphExecutor

end AsyncLib
