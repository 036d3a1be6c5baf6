import AsyncLib.Runtime.References

/-!
# Every step keeps the counts right

* `Resolving`: an unavailable value has at most one party that is going to resolve it: a closure of
  `ForwardTo`, the work that promised it, or the producer of the register in which it was installed.
* `Counted`: the counts are what `owed` says, and nobody has read an empty register.
* `Safe`: the invariant of runs in which the caller drops results only after their delivery.
-/

namespace AsyncLib

namespace GraphExecutor

open AsyncValue Sys Agenda

variable {F V E : Type} {g : AsyncGraph F} {start : Nat}

/-- The values that an operation is going to forward, or to install for the producer to forward. -/
def Op.forwards : Op → Addr → Nat
  | .forwardTo i _ => Pi.single i 1
  | .installIndirect _ ind _ => Pi.single ind 1
  | _ => 0

/-- The registers in which the indirect value `a` waits for the producer. -/
def installs (g : AsyncGraph F) (sh : Shared V E) (a : Addr) : Nat :=
  ∑ r ∈ Finset.range g.numRegs, if sh.regs r = .installed a then 1 else 0

/-- The parties that are going to resolve `a`. -/
def resolvers (g : AsyncGraph F) (sh : Shared V E) (A : Multiset Op) (a : Addr) : Nat :=
  weight Op.forwards A a + (if sh.promised a then 1 else 0) + installs g sh a

/-- The value is available. -/
def resolved (h : Heap V E Closure) (a : Addr) : Nat := if h.isAvailable a then 1 else 0

/-- Each value has at most one party that resolves it, and what is forwarded is an indirect value.
-/
structure Resolving (g : AsyncGraph F) (sh : Shared V E) (A : Multiset Op) : Prop where
  once : ∀ a, resolvers g sh A a + resolved sh.heap a ≤ 1
  kind : ∀ op ∈ A, ∀ i, 0 < op.forwards i → (sh.heap.cell i).mKind = .kIndirect
  kind_installed : ∀ r i, sh.regs r = .installed i → (sh.heap.cell i).mKind = .kIndirect
  bound : ∀ op ∈ A, ∀ a ∈ op.touches, a < sh.heap.next
  bound_reg : ∀ r a, (sh.regs r).ptr = some a → a < sh.heap.next

/-- The counts are those of the references that are owed. -/
structure Counted (g : AsyncGraph F) (start : Nat) (handles : Addr → Nat) (sh : Shared V E)
    (B : Multiset Op) : Prop where
  unread : ∀ r, sh.regs r = .empty → uses g sh B r = g.reads r
  counts : sh.heap.Ok Closure.refs (owed g start handles sh B)

section Steps

variable {handles : Addr → Nat} {sh sh' : Shared V E} {A B R : Multiset Op}
  {old new net : List Op}

/-! ## Unavailable values -/

theorem Resolving.unavailable (hr : Resolving g sh A) {a : Addr} (ha : 0 < resolvers g sh A a) :
    sh.heap.isAvailable a = false := by
  have h1 := hr.once a
  cases h : sh.heap.isAvailable a with
  | false => rfl
  | true =>
    rw [resolved, if_pos h] at h1
    omega

theorem Resolving.unavailable_forward (hr : Resolving g sh A) (op : Op) (hop : op ∈ A) {a : Addr}
    (ha : 0 < op.forwards a) : sh.heap.isAvailable a = false := by
  refine hr.unavailable ?_
  have := le_weight Op.forwards a hop
  unfold resolvers
  omega

theorem Resolving.unavailable_promised (hr : Resolving g sh A) {a : Addr}
    (ha : sh.promised a = true) : sh.heap.isAvailable a = false := by
  refine hr.unavailable ?_
  unfold resolvers
  rw [if_pos ha]
  omega

theorem installs_pos (hs : Slots g start sh A) {r : Nat} {i : Addr} (h : sh.regs r = .installed i) :
    0 < installs g sh i := by
  have hlt := hs.inRange r (by rw [h]; simp)
  refine Nat.lt_of_lt_of_le Nat.one_pos (Nat.le_trans (Nat.le_of_eq ?_)
    (Finset.single_le_sum (fun _ _ => Nat.zero_le _) (Finset.mem_range.mpr hlt)))
  rw [if_pos h]

theorem Resolving.unavailable_installed (hr : Resolving g sh A) (hs : Slots g start sh A) {r : Nat}
    {i : Addr} (h : sh.regs r = .installed i) : sh.heap.isAvailable i = false := by
  refine hr.unavailable ?_
  have := installs_pos hs h
  unfold resolvers
  omega

/-! ## Living values -/

theorem Counted.pos (hc : Counted g start handles sh B) {a : Addr}
    (ha : 0 < owed g start handles sh B a) : 0 < sh.heap.refs a := hc.counts.pos ha

theorem Counted.pos_op (hc : Counted g start handles sh B) (op : Op) (hop : op ∈ B) {a : Addr}
    (ha : 0 < op.refs g a) : 0 < sh.heap.refs a := by
  refine hc.pos ?_
  have := le_weight (Op.refs g) a hop
  simp only [owed, rest, Pi.add_apply]
  omega

theorem Counted.pos_promised (hc : Counted g start handles sh B) {a : Addr}
    (ha : sh.promised a = true) : 0 < sh.heap.refs a := by
  refine hc.pos ?_
  simp only [owed, rest, Pi.add_apply, promisedRefs, if_pos ha]
  omega

theorem Counted.pos_entry (hc : Counted g start handles sh B) {r : Nat} (hr : r < g.numRegs)
    {a : Addr} (ha : 0 < entryRefs g start r (sh.regs r) (sh.results r) (uses g sh B r) a) :
    0 < sh.heap.refs a := by
  refine hc.pos ?_
  have : entryRefs g start r (sh.regs r) (sh.results r) (uses g sh B r) a ≤
      entries g start sh (uses g sh B) a :=
    Finset.single_le_sum (f := fun q => entryRefs g start q (sh.regs q) (sh.results q)
      (uses g sh B q) a) (fun _ _ => Nat.zero_le _) (Finset.mem_range.mpr hr)
  simp only [owed, rest, Pi.add_apply]
  omega

theorem Counted.lt_next (hc : Counted g start handles sh B) {a : Addr} (ha : 0 < sh.heap.refs a) :
    a < sh.heap.next := hc.counts.wf.lt_next ha

/-- A start register is not one that is still to be filled. -/
theorem Slots.not_start (hs : Slots g start sh A) {r : Nat}
    (h : (sh.regs r).delivered = none) : r ∉ g.resultsIndex start := by
  intro hr
  obtain ⟨a, ha⟩ := hs.starts r hr
  rw [ha] at h
  cases h

/-- An indirect value that was installed and not forwarded yet is alive. -/
theorem Counted.alive_installed (hc : Counted g start handles sh B) (hs : Slots g start sh A)
    {r : Nat} {i : Addr} (h : sh.regs r = .installed i) : 0 < sh.heap.refs i := by
  have hlt := hs.inRange r (by rw [h]; simp)
  have hst : r ∉ g.resultsIndex start := hs.not_start (by rw [h]; rfl)
  refine hc.pos_entry hlt ?_
  simp only [entryRefs, h, Reg.ptr_installed, Option.elim_some, Pi.add_apply, Pi.single_eq_same,
    entryBase, if_neg hst, Reg.isIndirect]
  by_cases hu : g.userCount r = 0
  · simp only [if_pos hu]
    cases hslot : sh.results r with
    | empty => simp
    | held a =>
      have := hs.held r a hslot
      rw [h] at this
      cases this
      simp [slotRefs, hst]
    | dropped =>
      have := hs.dropped r hslot
      rw [h] at this
      exact absurd rfl this
  · simp [if_neg hu]

/-! ## Steps that change no register -/

/-- A step that processes no kernel and reads no register. -/
theorem counts_of_rest (sh : Shared V E) (old : List Op) (h4 : sh'.log = sh.log)
    (h5 : ∀ r, (new.map fun op => op.reads r).sum = (old.map fun op => op.reads r).sum)
    (hk : sh'.heap.Ok Closure.refs
      (rest g start handles sh' (uses g sh (↑old + R)) R + opRefs g new)) :
    sh'.heap.Ok Closure.refs (owed g start handles sh' (↑new + R)) := by
  rw [owed_split, uses_congr h4 h5]
  exact hk

/-- A step that leaves registers, slots and promises alone, too. -/
theorem counts_of_ops (sh : Shared V E) (old : List Op) (h1 : sh'.regs = sh.regs)
    (h2 : sh'.results = sh.results)
    (h3 : sh'.promised = sh.promised) (h4 : sh'.log = sh.log)
    (h5 : ∀ r, (new.map fun op => op.reads r).sum = (old.map fun op => op.reads r).sum)
    (hk : sh'.heap.Ok Closure.refs
      (rest g start handles sh (uses g sh (↑old + R)) R + opRefs g new)) :
    sh'.heap.Ok Closure.refs (owed g start handles sh' (↑new + R)) :=
  counts_of_rest sh old h4 h5 (by rw [rest_congr h1 h2 h3 rfl]; exact hk)

/-- A step that leaves the heap alone, too. -/
theorem counts_quiet (hc : Counted g start handles sh (↑old + R)) (h0 : sh'.heap = sh.heap)
    (h1 : sh'.regs = sh.regs) (h2 : sh'.results = sh.results) (h3 : sh'.promised = sh.promised)
    (h4 : sh'.log = sh.log)
    (h5 : ∀ r, (new.map fun op => op.reads r).sum = (old.map fun op => op.reads r).sum)
    (h6 : ∀ x, opRefs g new x = opRefs g old x) :
    sh'.heap.Ok Closure.refs (owed g start handles sh' (↑new + R)) := by
  refine counts_of_ops sh old h1 h2 h3 h4 h5 ?_
  rw [h0, funext h6, ← owed_split]
  exact hc.counts

/-- The kernel's reads become reads of an operation when it is processed. -/
theorem uses_process (hf : Flow g start sh A) {k : Nat} (hk : .processReadyKernel k ∈ A) :
    uses g { sh with log := k :: sh.log } (↑[Op.addArgs k (g.argumentsIdx k) [] none] + R) =
      uses g sh (↑[Op.processReadyKernel k] + R) := by
  obtain ⟨⟨-, h2⟩, h3, -⟩ := hf.fresh hk
  funext r
  simp only [uses, weight_add, weight_coe, List.map_cons, List.map_nil, List.sum_cons, List.sum_nil,
    Op.reads, Pi.zero_apply]
  rw [unlogged_cons h2 h3 fun n => (g.argumentsIdx n).count r]
  omega

/-! ## Steps that read or fill a register -/

theorem Cont.refs_op (c : Cont) (r : Nat) : (c.op r).refs g = c.refs := by
  cases c <;> rfl

theorem Cont.reads_op (c : Cont) (r : Nat) (ind : Addr) (q : Nat) :
    (c.op r).reads q = (Op.installIndirect r ind c).reads q := by
  cases c <;> rfl

/-- `GetOrCreateAsyncValuePtr` returns `v`: one of the register's references goes to the caller. -/
theorem Cont.counts_resume {c : Cont} {r : Nat} {v : Addr} {u : Nat → Nat}
    (hp : (sh.regs r).ptr = some v) (hw : g.Wired start) (hv : c.Valid g start r)
    (hu : ∀ q, u q = unlogged g sh.log (fun n => (g.argumentsIdx n).count q) +
      (Op.installIndirect r 0 c).reads q + weight Op.reads R q)
    (hslot : ∀ q, c = .takeResult q → sh.results q = .empty)
    (hk : sh.heap.Ok Closure.refs (rest g start handles sh u R + c.refs)) :
    (c.resume sh v).1.heap.Ok Closure.refs
      (owed g start handles (c.resume sh v).1 (↑(c.resume sh v).2 + R)) := by
  have hlt := hv.lt hw
  rw [c.resume_heap]
  refine hk.congr ?_
  rw [owed_split]
  cases c with
  | addArg k todo args err =>
    simp only [Cont.resume]
    generalize hu' : uses g sh (↑[Op.addArgs k todo (args ++ [v])
      (if sh.heap.isError v then some v else err)] + R) = u'
    have hdec : ∀ q, u' q + (if r = q then 1 else 0) = u q := by
      intro q
      rw [← hu', hu q]
      simp only [uses, weight_add, weight_coe, List.map_cons, List.map_nil, List.sum_cons,
        List.sum_nil, Op.reads, List.count_cons, beq_iff_eq]
      omega
    have hr := rest_change (g := g) (R := R) start handles sh
      sh u u' hlt rfl fun q hq => ⟨rfl, rfl, by
        have := hdec q
        rw [if_neg (Ne.symm hq)] at this
        omega⟩
    have hdr := hdec r
    rw [if_pos rfl] at hdr
    funext x
    have hx := congrFun hr x
    simp only [Pi.add_apply, entryRefs, hp, Option.elim_some, Cont.refs, opRefs_singleton, Op.refs,
      List.count_append, List.count_singleton, beq_iff_eq, Pi.single_apply, @eq_comm _ v x] at hx ⊢
    by_cases hxv : x = v
    · simp only [if_pos hxv] at hx ⊢
      omega
    · simp only [if_neg hxv] at hx ⊢
      omega
  | takeResult q =>
    obtain ⟨rfl, hmem⟩ := hv
    have hempty := hslot q rfl
    have hzero : g.userCount q = 0 := ((hw.mem_resultRegs q).mp hmem).2
    simp only [Cont.resume]
    have hu' : uses g { sh with results := Function.update sh.results q (.held v) }
        (↑([] : List Op) + R) = u := by
      funext p
      rw [hu p]
      simp [uses, Op.reads]
    rw [hu']
    have hr := rest_change (g := g) (R := R) start handles sh
      { sh with results := Function.update sh.results q (.held v) } u u
      hlt rfl fun p hpq => ⟨rfl, Function.update_of_ne hpq _ _, rfl⟩
    funext x
    have hx := congrFun hr x
    simp only [Pi.add_apply, entryRefs, hp, hempty, Option.elim_some, Function.update_self,
      slotRefs, entryBase, hzero, Cont.refs, opRefs, List.map_nil, List.sum_nil, Pi.zero_apply,
      reduceCtorEq, ↓reduceIte] at hx ⊢
    by_cases hst : q ∈ g.resultsIndex start
    · simp only [if_pos hst, Pi.zero_apply] at hx ⊢
      omega
    · simp only [if_neg hst, Pi.single_apply] at hx ⊢
      by_cases hxv : x = v
      · simp only [if_pos hxv] at hx ⊢
        omega
      · simp only [if_neg hxv] at hx ⊢
        omega

/-- A slot that an operation is going to fill is empty. -/
theorem Slots.empty_of_take (hs : Slots g start sh A) (op : Op) (hop : op ∈ A) {r : Nat}
    (h : 0 < op.take r) : sh.results r = .empty := by
  have h1 := le_weight Op.take r hop
  have h2 := hs.taken r
  unfold filled at h2
  split at h2
  · assumption
  · omega

/-- An empty register has an empty slot. -/
theorem Slots.slot_empty (hs : Slots g start sh A) {r : Nat} (h : sh.regs r = .empty) :
    sh.results r = .empty := by
  by_contra hne
  exact (hs.output r hne).2 h

/-- Filling an empty register: its reads and its slot need `userCount` references, or one if there
are no reads. -/
theorem rest_fill (hw : g.Wired start) (hs : Slots g start sh A) {u : Nat → Nat} {r : Nat} {x : Reg}
    {v : Addr} (hr : r < g.numRegs) (h0 : sh.regs r = .empty) (hx : x.ptr = some v)
    (hu : u r = g.reads r) :
    rest g start handles { sh with regs := Function.update sh.regs r x } u R =
      rest g start handles sh u R + Pi.single v
        (if x.isIndirect then g.userCount r + 1 else refAddValue g r + 1) := by
  have hst : r ∉ g.resultsIndex start := hs.not_start (by rw [h0]; rfl)
  have hslot := hs.slot_empty h0
  have hcount := hw.userCount_eq hr
  have hch := rest_change (g := g) (R := R) start handles sh
    { sh with regs := Function.update sh.regs r x } u u hr rfl
    fun q hq => ⟨Function.update_of_ne hq _ _, rfl, rfl⟩
  funext y
  have hy := congrFun hch y
  simp only [Pi.add_apply, entryRefs, h0, hx, hslot, Option.elim_some, Option.elim_none,
    Reg.ptr_empty, Function.update_self, slotRefs, entryBase, if_neg hst, Pi.zero_apply,
    Pi.single_apply, refAddValue, hu, ↓reduceIte] at hy ⊢
  by_cases hyv : y = v
  · simp only [if_pos hyv] at hy ⊢
    by_cases h1 : g.userCount r = 0
    · simp only [h1, ↓reduceIte] at hy ⊢
      split <;> omega
    · cases hxi : x.isIndirect <;> simp only [h1, hxi, Bool.false_eq_true, ↓reduceIte] at hy ⊢ <;>
        omega
  · simp only [if_neg hyv] at hy ⊢
    omega

/-! ## All steps -/

theorem reads_resume (c : Cont) (r : Nat) (ind v : Addr) (q : Nat) (hq : q ≠ r) :
    ((c.resume sh v).2.map fun op => op.reads q).sum = (Op.installIndirect r ind c).reads q := by
  cases c with
  | addArg k todo args err => simp [Cont.resume, Op.reads, Ne.symm hq]
  | takeResult p => rfl

theorem uses_resume (sh : Shared V E) {c : Cont} {r : Nat} (ind : Addr) {v : Addr} {q : Nat}
    (hlog : sh'.log = sh.log)
    (hq : q ≠ r) : uses g (c.resume sh' v).1 (↑(c.resume sh' v).2 + R) q =
      uses g sh (↑[Op.installIndirect r ind c] + R) q := by
  simp only [uses, weight_add, weight_coe, (c.resume_fields sh' v).1, hlog,
    reads_resume c r ind v q hq, List.map_singleton, List.sum_singleton]

/-- A register that is empty after a step was not read by it. -/
theorem Does.uses (hd : Does g start sh old sh' new net) (hf : Flow g start sh (↑old + A))
    {r : Nat} (hr : sh'.regs r = .empty) :
    GraphExecutor.uses g sh' (↑new + R) r = GraphExecutor.uses g sh (↑old + R) r := by
  have hquiet : ∀ {sh₁ : Shared V E} {l : List Op}, sh₁.log = sh.log →
      (l.map fun op => op.reads r).sum = (old.map fun op => op.reads r).sum →
      GraphExecutor.uses g sh₁ (↑l + R) r = GraphExecutor.uses g sh (↑old + R) r := by
    intro sh₁ l h1 h2
    simp only [GraphExecutor.uses, weight_add, weight_coe, h1, h2]
  cases hd with
  | @process k => exact congrFun (uses_process hf (by simp)) r
  | @load q c v hc hp =>
    rw [(c.resume_fields sh v).2.1] at hr
    have hq : r ≠ q := fun he => by rw [← he, hr] at hp; cases hp
    rw [uses_resume sh 0 rfl hq]
    simp only [GraphExecutor.uses, weight_add, weight_coe, List.map_singleton, List.sum_singleton,
      c.reads_op q 0]
  | @make q c hc hp =>
    refine hquiet rfl ?_
    simp only [List.map_singleton, List.sum_singleton, c.reads_op q sh.heap.next]
  | @install q ind c hp =>
    rw [(c.resume_fields { sh with regs := Function.update sh.regs q (.installed ind) } ind).2.1]
      at hr
    have hq : r ≠ q := fun he => by simp [he] at hr
    exact uses_resume _ _ rfl hq
  | @discard q ind v c hp =>
    rw [(c.resume_fields { sh with heap := sh.heap.dropRef ind (g.userCount q + 1) } v).2.1] at hr
    have hq : r ≠ q := fun he => by
      change sh.regs r = .empty at hr
      rw [← he, hr] at hp
      cases hp
    exact uses_resume _ _ rfl hq
  | decrease =>
    refine hquiet rfl ?_
    split <;> rfl
  | decreaseAll => exact hquiet rfl (by simp [Op.reads, Function.comp_def])
  | readyCons => exact hquiet rfl (by simp [Op.reads, Function.comp_def])
  | callError => exact hquiet rfl (reads_afterCall ..)
  | call => exact hquiet rfl (reads_afterCall ..)
  | pseudoAndThen => exact hquiet rfl (reads_waiterOps ..)
  | andThen => exact hquiet rfl (reads_waiterOps ..)
  | forwardExisting =>
    refine hquiet rfl ?_
    rw [List.map_append, List.sum_append, reads_waiterOps]
    rfl
  | forwardTo =>
    refine hquiet rfl ?_
    rw [List.map_append, List.sum_append, reads_waiterOps]
    rfl
  | resolveConcrete =>
    refine hquiet rfl ?_
    rw [List.map_append, List.sum_append, reads_waiterOps]
    rfl
  | resolveIndirect =>
    refine hquiet rfl ?_
    rw [List.map_append, List.sum_append, reads_waiterOps]
    rfl
  | _ => exact hquiet rfl rfl

/-- The values in a kernel's results are arguments or new. -/
theorem mem_outs {next : Addr} {args outs : List Addr} {srcs : List Src}
    (ho : srcs.mapM (Src.addr next args) = some outs) : ∀ a ∈ outs, a ∈ args ∨ next ≤ a := by
  induction srcs generalizing outs with
  | nil =>
    cases ho
    simp
  | cons src srcs ih =>
    rw [List.mapM_cons] at ho
    obtain ⟨b, hb, ho⟩ := Option.bind_eq_some_iff.mp ho
    obtain ⟨bs, hbs, ho⟩ := Option.bind_eq_some_iff.mp ho
    cases ho
    intro a ha
    rcases List.mem_cons.mp ha with rfl | ha
    · cases src with
      | fresh i =>
        cases hb
        exact .inr (Nat.le_add_right _ _)
      | arg i => exact .inl (List.mem_of_getElem? hb)
    · exact ih hbs a ha

theorem promises_lt {base : Nat} {fs : List (Fresh V E)} {a : Nat} (h : promises base fs a = true) :
    base ≤ a ∧ a < base + fs.length := by
  simp only [promises, Bool.and_eq_true, decide_eq_true_eq] at h
  refine ⟨h.1, ?_⟩
  cases hf : fs[a - base]? with
  | none => simp [hf] at h
  | some f =>
    have := (List.getElem?_eq_some_iff.mp hf).1
    omega

theorem Does.counts (hw : g.Wired start) (hd : Does g start sh old sh' new net)
    (hf : Flow g start sh (↑old + A)) (hs : Slots g start sh (↑old + A))
    (hr : Resolving g sh (↑old + A)) (hc : Counted g start handles sh (↑old + R)) :
    sh'.heap.Ok Closure.refs (owed g start handles sh' (↑new + R)) := by
  have hk := hc.counts
  rw [owed_split] at hk
  have hvalid : ∀ op ∈ old, op.Valid g start := fun op h => hf.valid op (by simp [h])
  cases hd with
  | skip | pseudoFirst | pseudoUnused | pseudoAvailable | pseudoWait | readyNil | addArgsNil
  | usedBySet | usedByWait | dropExecutor | enqueue =>
    exact counts_quiet hc rfl rfl rfl rfl rfl (fun _ => rfl) fun _ => rfl
  | decreaseAll =>
    refine counts_quiet hc rfl rfl rfl rfl rfl ?_ ?_
    · simp [Op.reads, Function.comp_def]
    · simp [opRefs, Op.refs, Function.comp_def]
  | decrease =>
    refine counts_quiet hc rfl rfl rfl rfl rfl (fun r => ?_) fun x => ?_
    · split <;> rfl
    · split <;> rfl
  | readyCons =>
    refine counts_quiet hc rfl rfl rfl rfl rfl ?_ ?_
    · simp [Op.reads, Function.comp_def]
    · simp [opRefs, Op.refs, Function.comp_def]
  | @process k =>
    rw [owed_split, uses_process hf (by simp)]
    exact hk
  | @pseudoAndThen j a ha =>
    refine counts_of_ops sh [.pseudoAndThen j a] rfl rfl rfl rfl
      (reads_waiterOps _) ?_
    rw [opRefs_waiterOps]
    refine Heap.Ok.andThen (hk.congr ?_) ha
    exact congrArg (_ + ·) (opRefs_singleton _)
  | @andThen k j v hv =>
    refine counts_of_ops sh [.andThen k j v] rfl rfl rfl rfl (reads_waiterOps _) ?_
    rw [opRefs_waiterOps]
    refine Heap.Ok.andThen (hk.congr ?_) hv
    exact congrArg (_ + ·) (opRefs_singleton _)
  | @load r c v hcont hp =>
    rw [opRefs_singleton, c.refs_op] at hk
    refine Cont.counts_resume hp hw ((Cont.valid_op g start hcont).mp (hvalid _ (by simp)))
      (fun q => ?_) (fun q hq => ?_) hk
    · simp only [GraphExecutor.uses, weight_add, weight_coe, List.map_singleton,
        List.sum_singleton, c.reads_op r 0]
      omega
    · subst hq
      exact hs.empty_of_take (.getResult q) (by simp [Cont.op]) (by simp [Op.take])
  | @make r c hcont hp =>
    refine counts_of_ops sh [c.op r] rfl rfl rfl rfl
      (fun q => by simp [c.reads_op r sh.heap.next]) ?_
    have h1 := hk.alloc (c := indirectCell (g.userCount r + 1)) rfl rfl fun _ => rfl
    refine h1.congr ?_
    rw [opRefs_singleton, opRefs_singleton, c.refs_op]
    simp only [Op.refs, indirectCell]
    abel
  | @install r ind c hp =>
    have hv : c.Valid g start r := hvalid (.installIndirect r ind c) (by simp)
    have hlt := hv.lt hw
    refine Cont.counts_resume (u := GraphExecutor.uses g sh (↑[Op.installIndirect r ind c] + R))
      (by simp) hw hv (fun q => ?_) (fun q hq => ?_) ?_
    · simp only [GraphExecutor.uses, weight_add, weight_coe, List.map_singleton,
        List.sum_singleton, ← c.reads_op r 0, ← c.reads_op r ind]
      omega
    · subst hq
      exact hs.empty_of_take (.installIndirect r ind (.takeResult q)) (by simp)
        (by simp [Op.take])
    · rw [rest_fill hw hs hlt hp rfl (hc.unread r hp)]
      refine hk.congr ?_
      rw [opRefs_singleton]
      simp only [Op.refs, Reg.isIndirect, ↓reduceIte]
      abel
  | @discard r ind v c hp =>
    have hv : c.Valid g start r := hvalid (.installIndirect r ind c) (by simp)
    refine Cont.counts_resume (u := GraphExecutor.uses g sh (↑[Op.installIndirect r ind c] + R))
      hp hw hv (fun q => ?_) (fun q hq => ?_) ?_
    · simp only [GraphExecutor.uses, weight_add, weight_coe, List.map_singleton,
        List.sum_singleton, ← c.reads_op r 0, ← c.reads_op r ind]
      omega
    · subst hq
      exact hs.empty_of_take (.installIndirect r ind (.takeResult q)) (by simp)
        (by simp [Op.take])
    · have h1 : sh.heap.Ok Closure.refs (rest g start handles sh
          (GraphExecutor.uses g sh (↑[Op.installIndirect r ind c] + R)) R + c.refs +
          Pi.single ind (g.userCount r + 1)) := by
        refine hk.congr ?_
        rw [opRefs_singleton]
        simp only [Op.refs]
        abel
      exact h1.dropRef (h1.pos (by simp))
  | @callError k args e =>
    have hv : Op.Valid g start (.callKernel k args (some e)) := hvalid _ (by simp)
    refine counts_of_ops sh [.callKernel k args (some e)] rfl rfl rfl rfl
      (reads_afterCall _ _ _) ?_
    rw [opRefs_afterCall, ← add_assoc]
    rw [opRefs_singleton] at hk
    refine Ok.addRefs _ hk fun a ha => ?_
    rw [List.eq_of_mem_replicate ha]
    have he := List.count_pos_iff.mpr (hv.2 e rfl)
    exact hk.pos (Nat.lt_of_lt_of_le he (Nat.le_add_left _ _))
  | @call k args outs o ho hl hb =>
    refine counts_of_rest sh [.callKernel k args none] rfl
      (reads_afterCall _ _ _) ?_
    rw [opRefs_afterCall]
    rw [opRefs_singleton] at hk
    have h1 := Ok.allocAll o.fresh hk
    have h2 := Ok.addRefs outs h1 fun a ha => by
      refine h1.pos ?_
      simp only [Pi.add_apply, Op.refs, freshRefs]
      rcases mem_outs ho a ha with hm | hle
      · have := List.count_pos_iff.mpr hm
        omega
      · rw [if_pos ⟨hle, hb a ha⟩]
        omega
    have h3 := Ok.dropReady sh.heap.next o.fresh (h2.congr (add_right_comm _ _ _))
    refine h3.congr ?_
    funext x
    have hp : promises sh.heap.next o.fresh x = true → sh.promised x = false := by
      intro hx
      cases hpx : sh.promised x with
      | false => rfl
      | true =>
        have := hc.lt_next (hc.pos_promised hpx)
        exact absurd (promises_lt hx).1 (Nat.not_le_of_lt this)
    simp only [rest, entries, promisedRefs, Pi.add_apply, Op.refs]
    by_cases hx : promises sh.heap.next o.fresh x = true
    · simp only [hx, hp hx, Bool.or_true, Bool.false_eq_true, ↓reduceIte]
      omega
    · simp only [Bool.eq_false_iff.mpr hx, Bool.or_false, Bool.false_eq_true, ↓reduceIte]
      omega
  | @dropRef a =>
    refine counts_of_ops sh [.dropRef a] rfl rfl rfl rfl (fun _ => rfl) ?_
    rw [opRefs_singleton] at hk
    exact (hk.dropRef (hk.pos (by simp [Op.refs]))).congr (add_zero _).symm
  | @set k j v =>
    refine counts_of_ops sh [.setAsyncValuePtr k j v] rfl rfl rfl rfl
      (fun _ => rfl) ?_
    rw [opRefs_singleton] at hk ⊢
    refine (hk.addRef (hk.pos (by simp [Op.refs])) _).congr ?_
    simp only [Op.refs, Pi.single_add]
    abel
  | @store k j v hp =>
    have hv : Op.Valid g start (.casAsyncValuePtr k j v) := hvalid _ (by simp)
    have hlt := hw.reg_lt hv.2
    refine counts_of_rest sh [.casAsyncValuePtr k j v] rfl (fun _ => rfl) ?_
    rw [rest_fill hw hs hlt hp rfl (hc.unread _ hp)]
    refine hk.congr ?_
    rw [opRefs_singleton, opRefs_singleton]
    simp only [Op.refs, Reg.isIndirect, Bool.false_eq_true, ↓reduceIte, add_zero]
  | occupied hp => exact counts_quiet hc rfl rfl rfl rfl rfl (fun _ => rfl) fun _ => rfl
  | @forwardExisting k j i v hi hlt =>
    have hreg := hs.existing k j i v (by simp)
    have hv : Op.Valid g start (.forwardExisting k j i v) := hvalid _ (by simp)
    have h1 : sh.heap.Ok Closure.refs (rest g start handles sh
        (GraphExecutor.uses g sh (↑[Op.forwardExisting k j i v] + R)) R + Pi.single v 1 +
        Pi.single v (refAddValue g (g.resultReg k j))) := by
      refine hk.congr ?_
      rw [opRefs_singleton]
      simp only [Op.refs, Pi.single_add]
      abel
    have h2 := h1.dropRef (h1.pos (by simp))
    have hpos := hc.alive_installed hs hreg
    have hpos' : 0 < (sh.heap.dropRef v (refAddValue g (g.resultReg k j))).refs i := by
      by_cases hiv : i = v
      · exact h2.pos (by simp [hiv])
      · rw [Heap.refs_dropRef_of_ne hiv]
        · exact hpos
        · intro hm
          have := (hc.counts.wf.points v i hm).2.2.2.1
          rw [hr.kind_installed _ i hreg] at this
          cases this
    have h3 := h2.forwardTo (i := i) (by rw [Heap.dropRef_mKind]; exact hr.kind_installed _ i hreg)
      (by rw [Heap.isAvailable, Heap.dropRef_state]; exact hr.unavailable_installed hs hreg) hpos'
    refine counts_of_rest sh [.forwardExisting k j i v] rfl (fun r => by
      rw [List.map_append, List.sum_append, reads_waiterOps]; rfl) (h3.congr ?_)
    have h0 : opRefs g [Op.decreaseReadyCounts k j] = 0 := opRefs_singleton _
    rw [opRefs_append, opRefs_waiterOps, h0, add_zero]
    have hch := rest_change (g := g) (R := R) start handles sh
      { sh with
        heap := ((sh.heap.dropRef v (refAddValue g (g.resultReg k j))).forwardTo i v).1
        regs := Function.update sh.regs (g.resultReg k j) (.forwarded i v) }
      (GraphExecutor.uses g sh (↑[Op.forwardExisting k j i v] + R)) _ (hw.reg_lt hv.2) rfl
      fun q hq => ⟨Function.update_of_ne hq _ _, rfl, rfl⟩
    simp only [Function.update_self, hreg] at hch
    rw [← add_right_cancel hch]
  | @forwardTo i v hi hlt =>
    refine counts_of_ops sh [.forwardTo i v] rfl rfl rfl rfl (fun r => by
      rw [List.map_append, List.sum_append, reads_waiterOps]; rfl) ?_
    have h1 : sh.heap.Ok Closure.refs (rest g start handles sh
        (GraphExecutor.uses g sh (↑[Op.forwardTo i v] + R)) R + Pi.single i 1 + Pi.single v 1) := by
      refine hk.congr ?_
      rw [opRefs_singleton]
      simp only [Op.refs]
      abel
    have hfw : 0 < (Op.forwardTo i v).forwards i := by simp [Op.forwards]
    have h2 := h1.forwardTo (hr.kind (.forwardTo i v) (by simp) i hfw)
      (hr.unavailable_forward (.forwardTo i v) (by simp) hfw) (h1.pos (by simp))
    refine h2.congr ?_
    rw [opRefs_append, opRefs_waiterOps, opRefs_singleton]
    simp only [Op.refs]
    abel
  | @resolveConcrete a out hp ha hkind ho =>
    have hst : (stateOf out).isAvailable = true := by cases out <;> rfl
    have h1 := hk.notifyAvailable ha hkind (hr.unavailable_promised hp) hst
    refine counts_of_rest sh [] rfl (fun r => by
      rw [List.map_append, List.sum_append, reads_waiterOps]; rfl) (h1.congr ?_)
    rw [opRefs_append, opRefs_waiterOps, opRefs_singleton]
    funext x
    simp only [rest, entries, promisedRefs, Pi.add_apply, Op.refs, Function.update_apply,
      Pi.single_apply]
    have h0 : opRefs g [] x = 0 := rfl
    by_cases hx : x = a
    · subst hx
      simp only [hp, h0, ↓reduceIte, Bool.false_eq_true]
      omega
    · simp only [if_neg hx, h0]
      omega
  | @resolveIndirect a out form ty h hp ha hkind ho hh =>
    have hcell : ((⟨form, ty, out⟩ : Fresh V E).cell (if form = .ready then 1 else 2) :
        Cell V E Closure).mKind = .kIndirect →
        ((⟨form, ty, out⟩ : Fresh V E).cell (if form = .ready then 1 else 2) :
          Cell V E Closure).state.isAvailable = false := by
      cases form <;> simp [Fresh.cell, State.isAvailable]
    have h1 := hk.alloc rfl rfl hcell
    rw [← hh] at h1
    have hcella : h.cell a = sh.heap.cell a := by
      rw [hh, Heap.alloc_cell, if_neg (Nat.ne_of_lt ha)]
    have h2 : h.Ok Closure.refs ((rest g start handles sh
        (GraphExecutor.uses g sh (↑([] : List Op) + R)) R +
        Pi.single sh.heap.next (if form = .ready then 0 else 1)) + Pi.single sh.heap.next 1) := by
      refine h1.congr ?_
      funext x
      simp only [Pi.add_apply, opRefs, List.map_nil, List.sum_nil, Fresh.cell, Pi.single_apply]
      split
      · split <;> omega
      · rfl
    have h3 := h2.forwardTo (i := a) (by rw [hcella]; exact hkind)
      (by rw [Heap.isAvailable, hcella]; exact hr.unavailable_promised hp)
      (by rw [Heap.refs, hcella]; exact hc.pos_promised hp)
    refine counts_of_rest sh [] rfl (fun r => by
      rw [List.map_append, List.sum_append, reads_waiterOps]; rfl) (h3.congr ?_)
    rw [opRefs_append, opRefs_waiterOps, opRefs_singleton]
    funext x
    have hnext : sh.promised sh.heap.next = false := by
      cases hpn : sh.promised sh.heap.next with
      | false => rfl
      | true => exact absurd (hc.lt_next (hc.pos_promised hpn)) (Nat.lt_irrefl _)
    have hne : a ≠ sh.heap.next := Nat.ne_of_lt ha
    simp only [rest, entries, promisedRefs, Pi.add_apply, Op.refs, Function.update_apply,
      Pi.single_apply]
    by_cases hx : x = sh.heap.next
    · have hxa : ¬ x = a := fun he => hne (he.symm.trans hx)
      subst hx
      simp only [hnext, if_neg hxa, ↓reduceIte, Bool.false_eq_true]
      cases form <;> simp <;> omega
    · by_cases hxa : x = a
      · subst hxa
        simp only [hp, if_neg hx, ↓reduceIte, Bool.false_eq_true]
        omega
      · simp only [if_neg hx, if_neg hxa]
        omega
  | @dropResult r a hslot hdel =>
    have hptr := hs.held r a hslot
    have hlt := hs.inRange r (hs.output r (by rw [hslot]; simp)).2
    have hzero : g.userCount r = 0 := ((hw.mem_resultRegs r).mp (hs.output_held hslot)).2
    have hch := rest_change (g := g) (R := R) start handles sh
      { sh with
        heap := sh.heap.dropRef a 1, results := Function.update sh.results r .dropped }
      (GraphExecutor.uses g sh (↑([] : List Op) + R)) _ hlt rfl
      fun q hq => ⟨rfl, Function.update_of_ne hq _ _, rfl⟩
    have h1 : sh.heap.Ok Closure.refs (rest g start handles { sh with
        heap := sh.heap.dropRef a 1, results := Function.update sh.results r .dropped }
        (GraphExecutor.uses g sh (↑([] : List Op) + R)) R + Pi.single a 1) := by
      refine hk.congr ?_
      funext x
      have hx := congrFun hch x
      have h0 : opRefs g [] x = 0 := rfl
      simp only [Pi.add_apply, entryRefs, hptr, hslot, Option.elim_some, Function.update_self,
        slotRefs, entryBase, hzero, h0, reduceCtorEq, ↓reduceIte, Pi.zero_apply] at hx ⊢
      by_cases hst : r ∈ g.resultsIndex start
      · simp only [if_pos hst, Pi.single_apply, Pi.zero_apply] at hx ⊢
        (split at hx <;> simp_all); omega
      · simp only [if_neg hst, Pi.single_apply] at hx ⊢
        (split at hx <;> simp_all); omega
    refine counts_of_rest sh [] rfl (fun _ => rfl) ?_
    exact (h1.dropRef (h1.pos (by simp))).congr (add_zero _).symm
  | @dropArgument r a hst hu ha hslot =>
    have hlt := hs.inRange r (by rw [ha]; simp)
    have hch := rest_change (g := g) (R := R) start handles sh
      { sh with
        heap := sh.heap.dropRef a 1, results := Function.update sh.results r .dropped }
      (GraphExecutor.uses g sh (↑([] : List Op) + R)) _ hlt rfl
      fun q hq => ⟨rfl, Function.update_of_ne hq _ _, rfl⟩
    have h1 : sh.heap.Ok Closure.refs (rest g start handles { sh with
        heap := sh.heap.dropRef a 1, results := Function.update sh.results r .dropped }
        (GraphExecutor.uses g sh (↑([] : List Op) + R)) R + Pi.single a 1) := by
      refine hk.congr ?_
      funext x
      have hx := congrFun hch x
      have h0 : opRefs g [] x = 0 := rfl
      simp only [Pi.add_apply, entryRefs, ha, Reg.ptr_direct, hslot, Option.elim_some,
        Function.update_self, slotRefs, entryBase, if_pos hst, h0, reduceCtorEq, ↓reduceIte,
        Pi.zero_apply, Pi.single_apply] at hx ⊢
      (split at hx <;> simp_all); omega
    refine counts_of_rest sh [] rfl (fun _ => rfl) ?_
    exact (h1.dropRef (h1.pos (by simp))).congr (add_zero _).symm

theorem Counted.preserved (hw : g.Wired start) (hd : Does g start sh old sh' new net)
    (hf : Flow g start sh (↑old + A)) (hs : Slots g start sh (↑old + A))
    (hr : Resolving g sh (↑old + A)) (hc : Counted g start handles sh (↑old + R)) :
    Counted g start handles sh' (↑new + R) where
  unread := by
    intro r h'
    have h0 : sh.regs r = .empty := by
      have hstep := hd.reg_step hs r
      rw [h'] at hstep
      cases hreg : sh.regs r with
      | empty => rfl
      | installed => rw [hreg] at hstep; cases hstep
      | forwarded => rw [hreg] at hstep; cases hstep
      | direct => rw [hreg] at hstep; cases hstep
    rw [hd.uses hf h']
    exact hc.unread r h0
  counts := hd.counts hw hf hs hr hc

end Steps

end GraphExecutor

end AsyncLib
