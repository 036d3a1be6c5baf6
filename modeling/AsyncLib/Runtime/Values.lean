import AsyncLib.Runtime.Readiness
import AsyncLib.Runtime.Sequential

/-!
# What the values of a run mean

Every value that a run delivers stands for an outcome: a payload or an error. An indirect value
stands for the outcome of the value it is, or is going to be, forwarded to.

* `Means h M`: `M` is such a meaning of the values of a heap, with one rule for each operation on the
  heap. A value without a meaning is one that no register will ever hold.
* `Computes`: kernels are functions of the values of their arguments.
* `Valued`: the meaning of what a register holds, or is going to hold, is the value of the register
  in the sequential evaluation. `Valued.preserved`: every step keeps it, possibly with a meaning for
  new values.
-/

namespace AsyncLib

namespace GraphExecutor

open AsyncValue Sys Agenda AsyncGraph

variable {F V E : Type} {g : AsyncGraph F} {start : Nat}

/-! ## Meanings of a heap -/

/-- `M` gives each value its outcome: a concrete value has it as payload or diagnostic, an indirect
value has that of its target, and the state of an available value fits. -/
structure Means {κ : Type} (h : Heap V E κ) (M : Addr → Option (Except E V)) : Prop where
  bound : ∀ a o, M a = some o → a < h.next
  out : ∀ a o, M a = some o → (h.cell a).out = some o ∨
    ((h.cell a).mKind = .kIndirect ∧ (h.isAvailable a = true ∨ (h.cell a).out = none))
  points : ∀ i t o, M i = some o → (h.cell i).mValue = some t → M t = some o
  state : ∀ a o, M a = some o → h.isAvailable a = true → (h.cell a).state = stateOf o

/-- The meaning `M`, with the values that a kernel made from `base` on. -/
def extend (M : Addr → Option (Except E V)) (base : Nat) (fs : List (Fresh V E)) (a : Nat) :
    Option (Except E V) := if base ≤ a then fs[a - base]?.map Fresh.out else M a

section Means

variable {κ : Type} {h h' : Heap V E κ} {M : Addr → Option (Except E V)} {a : Addr}

/-- A change that makes nothing available and sets no pointer. -/
theorem Means.frame (hm : Means h M) (hg : h.Grows h')
    (hv : ∀ i t, i < h.next → (h'.cell i).mValue = some t → (h.cell i).mValue = some t)
    (hs : ∀ b, b < h.next → h'.isAvailable b = true → h.isAvailable b = true) : Means h' M where
  bound b o hb := Nat.lt_of_lt_of_le (hm.bound b o hb) hg.next
  out b o hb := by
    have hlt := hm.bound b o hb
    rw [hg.out b hlt, hg.mKind b hlt]
    refine (hm.out b o hb).imp id fun h1 => ⟨h1.1, h1.2.imp ?_ id⟩
    exact hg.isAvailable hlt
  points i t o hi ht := hm.points i t o hi (hv i t (hm.bound i o hi) ht)
  state b o hb hav := by
    have hlt := hm.bound b o hb
    have h1 := hs b hlt hav
    rw [hg.state b hlt h1]
    exact hm.state b o hb h1

theorem Means.addRef (hm : Means h M) (k : Nat) : Means (h.addRef a k) M :=
  hm.frame (.addRef h a k) (fun i t _ hi => by simpa using hi)
    fun b _ hb => by simpa [Heap.isAvailable] using hb

theorem Means.dropRef (hm : Means h M) (k : Nat) : Means (h.dropRef a k) M :=
  hm.frame (.dropRef h a k) (fun i t _ hi => Heap.dropRef_mValue hi)
    fun b _ hb => by simpa [Heap.isAvailable] using hb

theorem Means.addRefs (hm : Means h M) (as : List Addr) : Means (addRefs h as) M := by
  induction as generalizing h with
  | nil => exact hm
  | cons a as ih => exact ih (hm.addRef 1)

theorem Means.dropReady (hm : Means h M) (base : Addr) (fs : List (Fresh V E)) :
    Means (dropReady h base fs) M := by
  induction fs generalizing h base with
  | nil => exact hm
  | cons f fs ih =>
    rw [GraphExecutor.dropReady]
    refine ih ?_ _
    split
    · exact hm.dropRef 1
    · exact hm

theorem Means.andThen (hm : Means h M) (w : Waiter κ) : Means (h.andThen a w).1 M := by
  refine hm.frame (.andThen h a w) (fun i t _ hi => ?_) fun b _ hb => ?_
  · unfold Heap.andThen at hi
    split at hi
    · exact hi
    · rw [Heap.modify_cell] at hi
      split at hi
      · rename_i hia
        rwa [hia]
      · exact hi
  · rwa [Heap.isAvailable, andThen_state] at hb

/-- A new value, with or without a meaning. -/
theorem Means.alloc (hm : Means h M) {c : Cell V E κ} (hc : c.mValue = none) (x : Option (Except E V))
    (hout : ∀ o, x = some o → c.out = some o ∨
      (c.mKind = .kIndirect ∧ (c.state.isAvailable = true ∨ c.out = none)))
    (hst : ∀ o, x = some o → c.state.isAvailable = true → c.state = stateOf o) :
    Means (h.alloc c) (Function.update M h.next x) := by
  have hM : ∀ b, b ≠ h.next → Function.update M h.next x b = M b := fun b hb =>
    Function.update_of_ne hb _ _
  have hkeep : ∀ b o, M b = some o → Function.update M h.next x b = some o := fun b o hb =>
    (hM b (Nat.ne_of_lt (hm.bound b o hb))).trans hb
  refine ⟨fun b o hb => ?_, fun b o hb => ?_, fun i t o hi ht => ?_, fun b o hb hav => ?_⟩
  · by_cases hn : b = h.next
    · rw [hn]
      exact Nat.lt_succ_self _
    · rw [hM b hn] at hb
      exact Nat.lt_succ_of_lt (hm.bound b o hb)
  · by_cases hn : b = h.next
    · rw [hn, Function.update_self] at hb
      rw [Heap.isAvailable, Heap.alloc_cell, if_pos hn]
      exact hout o hb
    · rw [hM b hn] at hb
      rw [Heap.isAvailable, Heap.alloc_cell, if_neg hn]
      exact hm.out b o hb
  · rw [Heap.alloc_cell] at ht
    split at ht
    · rw [hc] at ht
      cases ht
    · rename_i hn
      rw [hM i hn] at hi
      exact hkeep t o (hm.points i t o hi ht)
  · rw [Heap.isAvailable, Heap.alloc_cell] at hav
    rw [Heap.alloc_cell]
    by_cases hn : b = h.next
    · rw [hn, Function.update_self] at hb
      rw [if_pos hn] at hav ⊢
      exact hst o hb hav
    · rw [hM b hn] at hb
      rw [if_neg hn] at hav ⊢
      exact hm.state b o hb hav

/-- A new value of a kernel. -/
theorem Means.allocFresh (hm : Means h M) (f : Fresh V E) (n : Nat) (x : Option (Except E V))
    (hx : ∀ o, x = some o → f.out = o) :
    Means (h.alloc (f.cell n)) (Function.update M h.next x) := by
  refine hm.alloc rfl x (fun o ho => .inl ?_) fun o ho hav => ?_
  · rw [← hx o ho]
    rfl
  · cases hf : f.form with
    | ready =>
      rw [← hx o ho]
      simp [Fresh.cell, hf]
    | later | indirect => simp [Fresh.cell, hf, State.isAvailable] at hav

theorem extend_nil (hm : Means h M) : extend M h.next ([] : List (Fresh V E)) = M := by
  funext b
  unfold extend
  split
  · rename_i hb
    cases hM : M b with
    | none => rfl
    | some o => exact absurd hb (Nat.not_le_of_lt (hm.bound b o hM))
  · rfl

theorem extend_cons (base : Nat) (f : Fresh V E) (fs : List (Fresh V E)) :
    extend M base (f :: fs) = extend (Function.update M base (some f.out)) (base + 1) fs := by
  funext b
  unfold extend
  rcases Nat.lt_trichotomy b base with hlt | heq | hgt
  · have h1 : ¬ base ≤ b := by omega
    have h2 : ¬ base + 1 ≤ b := by omega
    rw [if_neg h1, if_neg h2, Function.update_of_ne (Nat.ne_of_lt hlt)]
  · subst heq
    rw [if_pos (Nat.le_refl b), if_neg (Nat.not_succ_le_self b), Function.update_self, Nat.sub_self]
    rfl
  · obtain ⟨d, rfl⟩ : ∃ d, b = base + 1 + d := ⟨b - (base + 1), by omega⟩
    have h1 : base + 1 + d - base = d + 1 := by omega
    have h2 : base + 1 + d - (base + 1) = d := by omega
    rw [if_pos (Nat.le_of_lt hgt), if_pos (Nat.le_add_right _ _), h1, h2, List.getElem?_cons_succ]

/-- The values that a kernel made mean what they are made for. -/
theorem Means.allocAll (hm : Means h M) (fs : List (Fresh V E)) :
    Means (allocAll h fs) (extend M h.next fs) := by
  induction fs generalizing h M with
  | nil =>
    rw [extend_nil hm]
    exact hm
  | cons f fs ih =>
    rw [extend_cons]
    exact ih (hm.allocFresh f 1 (some f.out) fun o ho => Option.some.inj ho)

/-- A value is resolved with what it was made for. -/
theorem Means.notifyAvailable (hm : Means h M) {out : Except E V} (hun : h.isAvailable a = false)
    (ho : (h.cell a).out = some out) : Means (h.notifyAvailable a (stateOf out)).1 M where
  bound := hm.bound
  out b o hb := by
    rw [Heap.isAvailable, Heap.notifyAvailable_cell]
    split
    · rename_i hba
      subst hba
      refine (hm.out b o hb).imp id fun h1 => ⟨h1.1, .inl ?_⟩
      cases out <;> rfl
    · exact hm.out b o hb
  points i t o hi ht := by
    rw [Heap.notifyAvailable_cell] at ht
    split at ht
    · rename_i hia
      subst hia
      exact hm.points i t o hi ht
    · exact hm.points i t o hi ht
  state b o hb hav := by
    rw [Heap.isAvailable, Heap.notifyAvailable_cell] at hav
    rw [Heap.notifyAvailable_cell]
    split
    · rename_i hba
      subst hba
      have hoo : out = o := by
        rcases hm.out b o hb with h1 | ⟨-, h1 | h1⟩
        · rw [ho] at h1
          exact Option.some.inj h1
        · rw [hun] at h1
          cases h1
        · rw [ho] at h1
          cases h1
      rw [hoo]
    · rename_i hba
      rw [if_neg hba] at hav
      exact hm.state b o hb hav

/-- An indirect value is forwarded to one with the same meaning. -/
theorem Means.forwardTo (hm : Means h M) {i v : Addr} (hun : h.isAvailable i = false)
    (hiv : ∀ o, M i = some o → M v = some o) : Means (h.forwardTo i v).1 M := by
  have hg := Heap.Grows.forwardTo (v := v) hun
  refine ⟨fun b o hb => Nat.lt_of_lt_of_le (hm.bound b o hb) hg.next, fun b o hb => ?_,
    fun b t o hb ht => ?_, fun b o hb hav => ?_⟩
  · rw [Heap.forwardTo_out, Heap.forwardTo_mKind]
    refine (hm.out b o hb).imp id fun h1 => ⟨h1.1, h1.2.imp ?_ id⟩
    exact fun h2 => Heap.forwardTo_isAvailable h i v b h2
  · rcases Heap.forwardTo_mValue ht with ⟨rfl, -, rfl⟩ | ht
    · have hv := hiv o hb
      rcases Heap.shorten_target (h := h) v with h1 | h1
      · exact hm.points v _ o hv h1
      · rw [h1]
        exact hv
    · exact hm.points b t o hb ht
  · rw [Heap.isAvailable, Heap.forwardTo_state] at hav
    rw [Heap.forwardTo_state]
    split
    · rename_i hc
      exact hm.state v o (hiv o (hc.1 ▸ hb)) hc.2
    · rename_i hc
      rw [if_neg hc] at hav
      exact hm.state b o hb hav

/-- Reading an available value gives its meaning. -/
theorem Means.value (hm : Means h M) (hw : h.Wf) {o : Except E V} (ha : M a = some o)
    (hav : h.isAvailable a = true) (hpos : 0 < h.refs a) : h.value a = some o := by
  have hconcrete : ∀ b, M b = some o → (h.cell b).mKind = .kConcrete → (h.cell b).out = some o := by
    intro b hb hk
    refine (hm.out b o hb).resolve_right fun h1 => ?_
    rw [hk] at h1
    cases h1.1
  unfold Heap.value
  rw [if_pos hav]
  cases hk : (h.cell a).mKind with
  | kConcrete => exact hconcrete a ha hk
  | kIndirect =>
    cases hv : (h.cell a).mValue with
    | none => exact absurd hv (hw.resolved a hk hav hpos)
    | some t => exact hconcrete t (hm.points a t o ha hv) (hw.points a t hv).2.2.2.1

end Means

/-! ## Errors and payloads -/

section Inputs

variable {M : Addr → Option (Except E V)}

/-- The erroneous arguments, by address and by value. -/
theorem filter_error {args : List Addr} {ins : List (Except E V)} {p : Addr → Bool}
    (hM : args.map M = ins.map some)
    (hp : ∀ a ∈ args, ∀ o, M a = some o → (p a = true ↔ ∃ e, o = .error e)) :
    (args.filter p).map M = (ins.filterMap fun o => match o with
      | .error e => some e
      | .ok _ => none).map fun e => some (.error e) := by
  induction args generalizing ins with
  | nil =>
    cases ins with
    | nil => rfl
    | cons o ins => cases hM
  | cons a args ih =>
    cases ins with
    | nil => cases hM
    | cons o ins =>
      rw [List.map_cons, List.map_cons, List.cons.injEq] at hM
      have ih := ih hM.2 fun b hb => hp b (List.mem_cons_of_mem a hb)
      have ha := hp a List.mem_cons_self o hM.1
      cases o with
      | error e =>
        rw [List.filter_cons_of_pos (ha.mpr ⟨e, rfl⟩), List.map_cons, ih, hM.1]
        rfl
      | ok v =>
        have hno : ¬ p a = true := fun h => by
          obtain ⟨e, he⟩ := ha.mp h
          cases he
        rw [List.filter_cons_of_neg hno, ih]
        rfl

/-- The last erroneous argument holds the last error. -/
theorem lastError_eq {args : List Addr} {ins : List (Except E V)} {p : Addr → Bool}
    (hM : args.map M = ins.map some)
    (hp : ∀ a ∈ args, ∀ o, M a = some o → (p a = true ↔ ∃ e, o = .error e)) :
    (args.filter p).getLast?.map M = (lastError ins).map fun e => some (.error e) := by
  rw [← List.getLast?_map, filter_error hM hp, List.getLast?_map]
  rfl

/-- Without errors the inputs are their payloads. -/
theorem eq_payloads {ins : List (Except E V)} (h : lastError ins = none) :
    ins = (payloads ins).map .ok := by
  have hnil := List.getLast?_eq_none_iff.mp h
  clear h
  induction ins with
  | nil => rfl
  | cons o ins ih =>
    cases o with
    | error e => cases hnil
    | ok v => exact congrArg (Except.ok v :: ·) (ih hnil)

end Inputs

/-! ## Kernels that are functions -/

/-- What a kernel puts into a result, for the payloads of its arguments. -/
def Src.value (fs : List (Fresh V E)) (vals : List V) : Src → Option (Except E V)
  | .fresh i => fs[i]?.map Fresh.out
  | .arg i => vals[i]?.map .ok

/-- A kernel that is called returns what `eval` says for the values of its arguments. -/
def Computes (eval : F → List V → List (Except E V)) (g : AsyncGraph F) (s : St V E)
    (l : Label V E) : Prop :=
  ∀ t c k args n vals, l = .run t c → s.next t = some (.callKernel k args none) →
    g.mAsyncNodes[k]? = some n → args.map s.sh.heap.value = vals.map (fun v => some (.ok v)) →
    c.outcome.outs.map (Src.value c.outcome.fresh vals) = (eval n.mFunc vals).map some

/-- The results of a call have the meaning that `Src.value` says. -/
theorem outs_means {M : Addr → Option (Except E V)} {base : Nat} (fs : List (Fresh V E))
    {args outs : List Addr} {srcs : List Src} {vals : List V}
    (hbase : ∀ a ∈ args, a < base) (hM : args.map M = vals.map (fun v => some (.ok v)))
    (ho : srcs.mapM (Src.addr base args) = some outs) :
    outs.map (extend M base fs) = srcs.map (Src.value fs vals) := by
  induction srcs generalizing outs with
  | nil =>
    cases ho
    rfl
  | cons src srcs ih =>
    rw [List.mapM_cons] at ho
    obtain ⟨b, hb, ho⟩ := Option.bind_eq_some_iff.mp ho
    obtain ⟨bs, hbs, ho⟩ := Option.bind_eq_some_iff.mp ho
    cases ho
    rw [List.map_cons, List.map_cons, ih hbs]
    refine congrArg (· :: _) ?_
    cases src with
    | fresh i =>
      cases hb
      rw [extend, if_pos (Nat.le_add_right _ _), Nat.add_sub_cancel_left]
      rfl
    | arg i =>
      have hlt := hbase b (List.mem_of_getElem? hb)
      rw [extend, if_neg (Nat.not_le_of_lt hlt)]
      have hi := congrArg (·[i]?) hM
      simp only [List.getElem?_map] at hi
      rw [show args[i]? = some b from hb] at hi
      cases hv : vals[i]? with
      | none => rw [hv] at hi; cases hi
      | some v =>
        rw [hv] at hi
        rw [Src.value, hv]
        exact Option.some.inj hi

/-! ## Forwarding -/

/-- A forwarded indirect value of a register is available, or its `ForwardTo` is still to come, and
the closure of a `ForwardTo` waits for its target. -/
structure Forwarding (sh : Shared V E) (A : Multiset Op) : Prop where
  pending : ∀ r i v, sh.regs r = .forwarded i v →
    sh.heap.isAvailable i = true ∨ .forwardTo i v ∈ A
  waits : ∀ a i v, .forward i v ∈ (sh.heap.cell a).waiters → a = v

section Forwarding

variable {sh sh' : Shared V E} {Q : Multiset Op} {old new net : List Op}

/-- `ForwardTo` makes the value available, or leaves a closure that will. -/
theorem available_or_pending {h : Heap V E Closure} (i v : Addr) :
    (h.forwardTo i v).1.isAvailable i = true ∨ .forwardTo i v ∈ pendingForward h i v := by
  cases hv : h.isAvailable v with
  | true =>
    left
    rw [Heap.isAvailable, Heap.forwardTo_state, if_pos ⟨rfl, hv⟩]
    exact hv
  | false => exact .inr (by simp [pendingForward, hv])

/-- What a register holds after a step: it is unchanged, or filled or forwarded by `old`. -/
theorem Does.reg_change (hd : Does g start sh old sh' new net) (r : Nat) :
    sh'.regs r = sh.regs r ∨
      (∃ i c, old = [.installIndirect r i c] ∧ sh'.regs r = .installed i) ∨
      (∃ k j v, old = [.casAsyncValuePtr k j v] ∧ r = g.resultReg k j ∧ sh'.regs r = .direct v) ∨
      ∃ k j i v, old = [.forwardExisting k j i v] ∧ r = g.resultReg k j ∧
        sh'.regs r = .forwarded i v ∧ (sh'.heap.isAvailable i = true ∨ .forwardTo i v ∈ net) := by
  cases hd with
  | @load q c v => exact .inl (congrFun (c.resume_fields sh v).2.1 r)
  | @discard q ind v c => exact .inl (congrFun (c.resume_fields _ v).2.1 r)
  | @install q ind c hp =>
    have hregs := congrFun (c.resume_fields
      { sh with regs := Function.update sh.regs q (.installed ind) } ind).2.1 r
    by_cases hq : r = q
    · subst hq
      exact .inr (.inl ⟨ind, c, rfl, hregs.trans (Function.update_self ..)⟩)
    · exact .inl (hregs.trans (Function.update_of_ne hq _ _))
  | @store k j v hp =>
    by_cases hq : r = g.resultReg k j
    · subst hq
      exact .inr (.inr (.inl ⟨k, j, v, rfl, rfl, Function.update_self ..⟩))
    · exact .inl (Function.update_of_ne hq _ _)
  | @forwardExisting k j i v hi hv =>
    by_cases hq : r = g.resultReg k j
    · subst hq
      refine .inr (.inr (.inr ⟨k, j, i, v, rfl, rfl, Function.update_self .., ?_⟩))
      have hp : pendingForward (sh.heap.dropRef v (refAddValue g (g.resultReg k j))) i v =
          pendingForward sh.heap i v := by
        unfold pendingForward Heap.isAvailable
        rw [Heap.dropRef_state]
      refine (available_or_pending i v).imp id fun hm => List.mem_append_left _ ?_
      rw [← hp]
      exact hm
    · exact .inl (Function.update_of_ne hq _ _)
  | _ => exact .inl rfl

/-- A forwarded value is available after a step, or its forwarding is still to come. -/
theorem Does.pending (hd : Does g start sh old sh' new net) (hl : Later sh sh') {i v : Addr}
    (hi : i < sh.heap.next) (h : sh.heap.isAvailable i = true ∨ .forwardTo i v ∈ (↑old + Q : Multiset Op)) :
    sh'.heap.isAvailable i = true ∨ .forwardTo i v ∈ (↑net + Q : Multiset Op) := by
  rcases h with h | h
  · exact .inl (hl.heap.isAvailable hi h)
  · rcases Multiset.mem_add.mp h with h | h
    · have h := Multiset.mem_coe.mp h
      cases hd with
      | @forwardTo i' v' =>
        cases List.mem_singleton.mp h
        refine (available_or_pending i v).imp id fun hp => Multiset.mem_add.mpr (.inl ?_)
        exact Multiset.mem_coe.mpr (List.mem_append_left _ hp)
      | @load q c => cases c <;> simp [Cont.op] at h
      | @make q c => cases c <;> simp [Cont.op] at h
      | _ => simp at h
    · exact .inr (Multiset.mem_add.mpr (.inr h))

theorem Forwarding.preserved (hd : Does g start sh old sh' new net) (hs : Slots g start sh (↑old + Q))
    (hr : Resolving g sh (↑old + Q)) (h : Forwarding sh (↑old + Q)) : Forwarding sh' (↑net + Q) := by
  refine ⟨fun r i v hv => ?_, fun a i v hw => ?_⟩
  · rcases hd.reg_change r with he | ⟨x, c, rfl, he⟩ | ⟨k, j, x, rfl, rfl, he⟩ |
      ⟨k, j, x, y, rfl, rfl, he, hav⟩
    · rw [he] at hv
      exact hd.pending (hd.later hs hr) (hr.bound_reg r i (by rw [hv]; rfl)) (h.pending r i v hv)
    · rw [he] at hv
      cases hv
    · rw [he] at hv
      cases hv
    · rw [he] at hv
      cases hv
      exact hav.imp id fun hm => Multiset.mem_add.mpr (.inl (Multiset.mem_coe.mpr hm))
  · rcases hd.mem_waiters hw with hm | ⟨k, j, -, hm, -⟩ | ⟨j, -, hm⟩ | ⟨i', hm⟩
    · exact h.waits a i v hm
    · cases hm
    · cases hm
    · cases hm
      rfl

/-- When nothing is left to do, a forwarded value whose target is available is available. -/
theorem Forwarding.available (h : Forwarding sh (waitingOps start sh.heap)) (hw : sh.heap.Wf)
    {r : Nat} {i v : Addr} (hreg : sh.regs r = .forwarded i v) (hv : sh.heap.isAvailable v = true) :
    sh.heap.isAvailable i = true := by
  refine (h.pending r i v hreg).resolve_right fun hop => ?_
  -- the closure would wait for an available value
  obtain ⟨b, -, w, hmem, hcode⟩ := mem_waitingOps.mp hop
  match w with
  | .forward i' v' =>
    cases List.mem_singleton.mp hcode
    have hb := h.waits b i v hmem
    subst hb
    rw [hw.quiet b hv] at hmem
    cases hmem
  | .client (.setAndDecrease k j x) => simp [waiterCode] at hcode
  | .client (.decrease j) => simp [waiterCode] at hcode

end Forwarding

/-! ## The invariant -/

/-- The value `v` of register `r` has the meaning of the register, and a kernel has returned it or
it is available. -/
def Arrives (spec : Nat → Option (Except E V)) (sh : Shared V E) (M : Addr → Option (Except E V))
    (r : Nat) (v : Addr) : Prop :=
  (∃ o, M v = some o ∧ spec r = some o) ∧ (v ∈ sh.returned ∨ sh.heap.isAvailable v = true)

/-- The values that an operation delivers, installs or forwards have the right meaning. -/
def Op.Valued (g : AsyncGraph F) (spec : Nat → Option (Except E V)) (sh : Shared V E)
    (M : Addr → Option (Except E V)) : Op → Prop
  | .forwardTo i v => ∀ o, M i = some o → M v = some o
  | .installIndirect r i _ => M i = spec r
  | .processUsedBy k j v => Arrives spec sh M (g.resultReg k j) v
  | .andThen k j v => Arrives spec sh M (g.resultReg k j) v
  | .setAsyncValuePtr k j v => Arrives spec sh M (g.resultReg k j) v
  | .casAsyncValuePtr k j v => Arrives spec sh M (g.resultReg k j) v
  | .forwardExisting k j _ v => Arrives spec sh M (g.resultReg k j) v
  | _ => True

/-- Registers, operations and delivered values mean what `spec` says of their registers. -/
structure Valued (g : AsyncGraph F) (spec : Nat → Option (Except E V)) (sh : Shared V E)
    (A : Multiset Op) (M : Addr → Option (Except E V)) : Prop where
  means : Means sh.heap M
  ops : ∀ op ∈ A, op.Valued g spec sh M
  pointer : ∀ r a, (sh.regs r).ptr = some a → M a = spec r
  delivered : ∀ r v, (sh.regs r).delivered = some v → Arrives spec sh M r v

section Valued

variable {handles : Addr → Nat} {sh sh' : Shared V E} {A B R Q : Multiset Op}
  {old new net : List Op} {M M' : Addr → Option (Except E V)}
  {spec : Nat → Option (Except E V)} {eval : F → List V → List (Except E V)}

/-- `M'` agrees with `M` on the values of the heap `h`. -/
def Agrees (h : Heap V E Closure) (M M' : Addr → Option (Except E V)) : Prop :=
  ∀ a, a < h.next → M' a = M a

theorem Arrives.later {r : Nat} {v : Addr} (h : Arrives spec sh M r v) (hm : Means sh.heap M)
    (hl : Later sh sh') (ha : Agrees sh.heap M M') : Arrives spec sh' M' r v := by
  obtain ⟨⟨o, ho, hs⟩, h2⟩ := h
  have hlt := hm.bound v o ho
  exact ⟨⟨o, (ha v hlt).trans ho, hs⟩, h2.imp (hl.returned v) (hl.heap.isAvailable hlt)⟩

theorem Op.Valued.later {op : Op} (h : op.Valued g spec sh M) (hm : Means sh.heap M)
    (hl : Later sh sh') (ha : Agrees sh.heap M M') (hb : ∀ a ∈ op.touches, a < sh.heap.next) :
    op.Valued g spec sh' M' := by
  cases op with
  | forwardTo i v =>
    intro o ho
    rw [ha i (hb i (by simp [Op.touches]))] at ho
    have hv := h o ho
    rw [ha v (hm.bound v o hv)]
    exact hv
  | installIndirect r i c => exact (ha i (hb i (by simp [Op.touches]))).trans h
  | processUsedBy k j v => exact Arrives.later h hm hl ha
  | andThen k j v => exact Arrives.later h hm hl ha
  | setAsyncValuePtr k j v => exact Arrives.later h hm hl ha
  | casAsyncValuePtr k j v => exact Arrives.later h hm hl ha
  | forwardExisting k j i v => exact Arrives.later h hm hl ha
  | _ => trivial

/-- The values that kernel `k` has read, and those of its input registers. -/
theorem Valued.inputs (h : Valued g spec sh A M) {k : Nat} {args : List Addr} {err : Option Addr}
    (hread : Reading g sh k [] args err) : ∃ ins : List (Except E V),
      (g.argumentsIdx k).map spec = ins.map some ∧ args.map M = ins.map some := by
  obtain ⟨done, hdone, hl⟩ := hread.loaded
  rw [List.append_nil] at hdone
  rw [hdone]
  clear hdone hread
  induction hl with
  | nil => exact ⟨[], rfl, rfl⟩
  | @cons r a rs as hra _ ih =>
    obtain ⟨ins, h1, h2⟩ := ih
    obtain ⟨⟨o, ho, hs⟩, -⟩ := h.delivered r a (by rw [hra]; rfl)
    exact ⟨o :: ins, by rw [List.map_cons, List.map_cons, hs, h1],
      by rw [List.map_cons, List.map_cons, ho, h2]⟩

/-- An argument is erroneous exactly when its meaning is an error. -/
theorem Valued.isError_iff (h : Valued g spec sh A M) {k : Nat} {args : List Addr}
    {err : Option Addr} (hread : Reading g sh k [] args err) :
    ∀ a ∈ args, ∀ o, M a = some o → (sh.heap.isError a = true ↔ ∃ e, o = .error e) := by
  intro a ha o ho
  obtain ⟨-, -, -, hav⟩ := hread.available a ha
  rw [Heap.isError, decide_eq_true_eq, h.means.state a o ho hav]
  cases o with
  | error e => exact ⟨fun _ => ⟨e, rfl⟩, fun _ => rfl⟩
  | ok v =>
    refine ⟨fun hc => ?_, fun ⟨e, he⟩ => ?_⟩
    · cases hc
    · cases he

/-- The results of a node with an erroneous input. -/
theorem results_error {n : AsyncNode F} {ins : List (Except E V)} {e : E}
    (he : lastError ins = some e) (eval : F → List V → List (Except E V)) {j : Nat}
    (hj : j < n.getNumResults) : (n.results eval ins)[j]? = some (.error e) := by
  rw [AsyncNode.results, he]
  exact List.getElem?_replicate_of_lt hj

/-- The kernel of a run and its number of results. -/
theorem exists_node {k : Nat} (hk : k < g.numKernels) : ∃ n : AsyncNode F,
    g.mAsyncNodes[k]? = some n ∧ n.getNumResults = g.numResults k := by
  refine ⟨g.mAsyncNodes.get ⟨k, hk⟩, List.getElem?_eq_getElem hk, ?_⟩
  rw [AsyncGraph.numResults, AsyncGraph.resultsIndex, List.length_map, List.getElem?_eq_getElem hk]
  rfl

/-- An erroneous input is passed on with its meaning. -/
theorem Valued.callError {α : Type} {arguments : List α} {value : α → Option (Except E V)}
    (h : Valued g spec sh A M) (hsp : Specified g start eval arguments value spec) {k : Nat}
    {args : List Addr} {e : Addr} (hk : Runs g start k) (hread : Reading g sh k [] args (some e))
    (he : e ∈ args) {j : Nat} (hj : j < g.numResults k) :
    Arrives spec sh M (g.resultReg k j) e := by
  obtain ⟨ins, h1, h2⟩ := h.inputs hread
  have hlast := lastError_eq h2 (h.isError_iff hread)
  have herr : (args.filter sh.heap.isError).getLast? = some e := hread.error.symm
  obtain ⟨n, hn, hnum⟩ := exists_node hk.2
  obtain ⟨-, -, -, hav⟩ := hread.available e he
  rw [herr] at hlast
  obtain ⟨x, hx, hMe⟩ := Option.map_eq_some_iff.mp hlast.symm
  refine ⟨⟨.error x, hMe.symm, ?_⟩, .inr hav⟩
  rw [hsp.kernel k n hk.1 hn ins h1 j hj]
  exact results_error hx eval (by rw [hnum]; exact hj)

/-- What a kernel returns has the meaning of its results. -/
theorem Valued.call {α : Type} {arguments : List α} {value : α → Option (Except E V)}
    (h : Valued g spec sh A M) (hsp : Specified g start eval arguments value spec)
    (hwf : sh.heap.Wf) {k : Nat} {args outs : List Addr} {o : Outcome V E} (hk : Runs g start k)
    (hread : Reading g sh k [] args none) (halive : ∀ a ∈ args, 0 < sh.heap.refs a)
    (hcomp : ∀ n vals, g.mAsyncNodes[k]? = some n →
      args.map sh.heap.value = vals.map (fun v => some (.ok v)) →
      o.outs.map (Src.value o.fresh vals) = (eval n.mFunc vals).map some)
    (ho : o.outs.mapM (Src.addr sh.heap.next args) = some outs)
    (hlen : outs.length = g.numResults k) {j : Nat} {v : Addr} (hv : outs[j]? = some v) :
    ∃ x, extend M sh.heap.next o.fresh v = some x ∧ spec (g.resultReg k j) = some x := by
  obtain ⟨ins, h1, h2⟩ := h.inputs hread
  have hlast := lastError_eq h2 (h.isError_iff hread)
  have hnone : lastError ins = none := by
    rw [show (args.filter sh.heap.isError).getLast? = none from hread.error.symm] at hlast
    exact Option.map_eq_none_iff.mp hlast.symm
  obtain ⟨n, hn, -⟩ := exists_node hk.2
  have hins := eq_payloads hnone
  have hM : args.map M = (payloads ins).map fun v => some (.ok v) := by
    rw [h2, hins, List.map_map, ← hins]
    rfl
  have hvals : args.map sh.heap.value = (payloads ins).map fun v => some (.ok v) := by
    rw [← hM]
    refine List.map_congr_left fun a ha => ?_
    obtain ⟨r, -, hreg, hav⟩ := hread.available a ha
    obtain ⟨⟨x, hx, -⟩, -⟩ := h.delivered r a (by rw [hreg]; rfl)
    rw [hx]
    exact h.means.value hwf hx hav (halive a ha)
  have houts := outs_means o.fresh (fun a ha => hwf.lt_next (halive a ha)) hM ho
  rw [hcomp n _ hn hvals] at houts
  have hj := (List.getElem?_eq_some_iff.mp hv).1
  have hget := congrArg (·[j]?) houts
  simp only [List.getElem?_map, hv, Option.map_some] at hget
  obtain ⟨x, hx, hxe⟩ := Option.map_eq_some_iff.mp hget.symm
  refine ⟨x, hxe.symm, ?_⟩
  rw [hsp.kernel k n hk.1 hn ins h1 j (by rw [← hlen]; exact hj), AsyncNode.results, hnone]
  exact hx

/-- The call of a kernel. -/
theorem Valued.called {α : Type} {arguments : List α} {value : α → Option (Except E V)}
    (h : Valued g spec sh A M) (hsp : Specified g start eval arguments value spec)
    (hwf : sh.heap.Wf) {k : Nat} {args : List Addr} {o : Outcome V E} (hk : Runs g start k)
    (hread : Reading g sh k [] args none) (halive : ∀ a ∈ args, 0 < sh.heap.refs a)
    (hcomp : ∀ n vals, g.mAsyncNodes[k]? = some n →
      args.map sh.heap.value = vals.map (fun v => some (.ok v)) →
      o.outs.map (Src.value o.fresh vals) = (eval n.mFunc vals).map some)
    (hcall : callKernel g sh o k args = some (sh', new)) :
    ∃ M', Agrees sh.heap M M' ∧ Means sh'.heap M' ∧ ∀ op ∈ new, op.Valued g spec sh' M' := by
  unfold callKernel at hcall
  split at hcall
  · cases hcall
  · rename_i outs ho
    split at hcall
    · rename_i hg
      cases hcall
      refine ⟨extend M sh.heap.next o.fresh, fun a ha => if_neg (Nat.not_le_of_lt ha),
        ((h.means.allocAll o.fresh).addRefs outs).dropReady _ _, fun op hop => ?_⟩
      rcases mem_afterCall hop with ⟨a, -, rfl⟩ | ⟨j, v, hv, rfl⟩
      · trivial
      · exact ⟨h.call hsp hwf hk hread halive hcomp ho hg.1 hv,
          .inl (List.mem_append_right _ (List.mem_of_getElem? hv))⟩
    · cases hcall

/-- What `ForwardTo` leaves behind. -/
theorem valued_pendingForward {h : Heap V E Closure} {i v : Addr}
    (hiv : ∀ o, M i = some o → M v = some o) : ∀ op ∈ pendingForward h i v, op.Valued g spec sh M := by
  intro op hop
  unfold pendingForward at hop
  split at hop
  · cases hop
  · cases List.mem_singleton.mp hop
    exact hiv

/-- A step gives new values a meaning and keeps the meaning of the others. -/
theorem Does.means {α : Type} {arguments : List α} {value : α → Option (Except E V)}
    (hd : Does g start sh old sh' new net)
    (hf : Flow g start sh (↑old + Q)) (hs : Slots g start sh (↑old + Q))
    (hr : Resolving g sh (↑old + Q)) (hc : Counted g start handles sh (↑old + R))
    (hold : ∀ op ∈ old, op.Sound g start sh)
    (hsp : Specified g start eval arguments value spec)
    (hcall : ∀ k args, old = [.callKernel k args none] → ∃ o : Outcome V E,
      (∀ n vals, g.mAsyncNodes[k]? = some n →
        args.map sh.heap.value = vals.map (fun v => some (.ok v)) →
        o.outs.map (Src.value o.fresh vals) = (eval n.mFunc vals).map some) ∧
      callKernel g sh o k args = some (sh', new))
    (h : Valued g spec sh (↑old + Q) M) :
    ∃ M', Agrees sh.heap M M' ∧ Means sh'.heap M' ∧ ∀ op ∈ net, op.Valued g spec sh' M' := by
  have hl := hd.later hs hr
  have hvalid : ∀ op ∈ old, op.Valid g start := fun op h => hf.valid op (by simp [h])
  have hops : ∀ op ∈ old, op.Valued g spec sh M := fun op ho => h.ops op (by simp [ho])
  have hself : Agrees sh.heap M M := fun _ _ => rfl
  have hone : ∀ {op : Op}, op.Valued g spec sh' M → ∀ op' ∈ [op], op'.Valued g spec sh' M := by
    intro op h op' hm
    rw [List.mem_singleton.mp hm]
    exact h
  have hlast : ∀ {l : List Op} {op : Op} {N : Addr → Option (Except E V)},
      (∀ op ∈ l, op.Valued g spec sh' N) → op.Valued g spec sh' N →
      ∀ op' ∈ l ++ [op], op'.Valued g spec sh' N := by
    intro l op N h1 h2 op' hop
    rcases List.mem_append.mp hop with h | h
    · exact h1 op' h
    · rw [List.mem_singleton.mp h]
      exact h2
  cases hd with
  | pseudoAndThen ha =>
    refine ⟨M, hself, h.means.andThen _, fun op hop => ?_⟩
    simp only [waiterCode, List.mem_cons, List.not_mem_nil, or_false] at hop
    rcases hop with rfl | rfl | rfl <;> trivial
  | decreaseAll =>
    refine ⟨M, hself, h.means, fun op hop => ?_⟩
    obtain ⟨u, -, rfl⟩ := List.mem_map.mp hop
    trivial
  | decrease =>
    refine ⟨M, hself, h.means, ?_⟩
    split
    · exact hone trivial
    · intro op hop
      cases hop
  | readyCons =>
    refine ⟨M, hself, h.means, fun op hop => ?_⟩
    simp only [List.mem_append, List.mem_map, List.mem_cons, List.not_mem_nil, or_false] at hop
    rcases hop with ⟨n, -, rfl⟩ | rfl | rfl <;> trivial
  | enqueue =>
    refine ⟨M, hself, h.means, fun op hop => ?_⟩
    simp only [taskFrame, Frame.ops, List.map_cons, List.map_nil, List.singleton_append,
      List.mem_cons, List.not_mem_nil, or_false] at hop
    rcases hop with rfl | rfl | rfl <;> trivial
  | @load q c v hcont hp =>
    refine ⟨M, hself, by rw [c.resume_heap]; exact h.means, fun op hop => ?_⟩
    cases c with
    | addArg =>
      cases List.mem_singleton.mp hop
      trivial
    | takeResult => cases hop
  | @make q c hcont hp =>
    have hind : Means (sh.heap.alloc (indirectCell (g.userCount q + 1)))
        (Function.update M sh.heap.next (spec q)) :=
      h.means.alloc rfl (spec q) (fun o _ => .inr ⟨rfl, .inr rfl⟩) fun o _ hav => by cases hav
    refine ⟨Function.update M sh.heap.next (spec q), fun a ha =>
      Function.update_of_ne (Nat.ne_of_lt ha) _ _, hind, fun op hop => ?_⟩
    cases List.mem_singleton.mp hop
    exact Function.update_self ..
  | @install q ind c hp =>
    refine ⟨M, hself, by rw [c.resume_heap]; exact h.means, fun op hop => ?_⟩
    cases c with
    | addArg =>
      cases List.mem_singleton.mp hop
      trivial
    | takeResult => cases hop
  | @discard q ind v c hp =>
    refine ⟨M, hself, by rw [c.resume_heap]; exact h.means.dropRef _, fun op hop => ?_⟩
    cases c with
    | addArg =>
      cases List.mem_singleton.mp hop
      trivial
    | takeResult => cases hop
  | @callError k args e =>
    have hread : Reading g sh k [] args (some e) := hold _ (List.mem_singleton_self _)
    obtain ⟨hk, he⟩ : Op.Valid g start (.callKernel k args (some e)) :=
      hvalid _ (List.mem_singleton_self _)
    refine ⟨M, hself, h.means.addRefs _, fun op hop => ?_⟩
    rcases mem_afterCall hop with ⟨a, -, rfl⟩ | ⟨j, v, hj, rfl⟩
    · trivial
    · have hve : v = e := List.eq_of_mem_replicate (List.mem_of_getElem? hj)
      have hlt := (List.getElem?_eq_some_iff.mp hj).1
      rw [List.length_replicate] at hlt
      subst hve
      exact (h.callError hsp hk hread (he v rfl) hlt).later h.means hl hself
  | @call k args outs o₁ ho hlen hb =>
    have hread : Reading g sh k [] args none := hold _ (List.mem_singleton_self _)
    obtain ⟨hk, -⟩ : Op.Valid g start (.callKernel k args none) :=
      hvalid _ (List.mem_singleton_self _)
    obtain ⟨o, hcomp, he⟩ := hcall k args rfl
    refine h.called hsp hc.counts.wf hk hread (fun a ha => ?_) hcomp he
    exact hc.pos_op (.callKernel k args none) (by simp) (List.count_pos_iff.mpr ha)
  | dropRef =>
    refine ⟨M, hself, h.means.dropRef _, fun op hop => ?_⟩
    cases hop
  | @usedBySet k j v hv =>
    exact ⟨M, hself, h.means, hone (hops (.processUsedBy k j v) (List.mem_singleton_self _))⟩
  | @usedByWait k j v hu =>
    exact ⟨M, hself, h.means, hone (hops (.processUsedBy k j v) (List.mem_singleton_self _))⟩
  | @andThen k j v hv =>
    have hop : Arrives spec sh M (g.resultReg k j) v :=
      hops (.andThen k j v) (List.mem_singleton_self _)
    refine ⟨M, hself, h.means.andThen _, fun op hm => ?_⟩
    simp only [waiterCode, List.mem_cons, List.not_mem_nil, or_false] at hm
    rcases hm with rfl | rfl | rfl
    · exact hop.later h.means hl hself
    · trivial
    · trivial
  | @set k j v =>
    have hop : Arrives spec sh M (g.resultReg k j) v :=
      hops (.setAsyncValuePtr k j v) (List.mem_singleton_self _)
    exact ⟨M, hself, h.means.addRef _, hone (hop.later h.means hl hself)⟩
  | @occupied k j v i hp =>
    exact ⟨M, hself, h.means, hone (hops (.casAsyncValuePtr k j v) (List.mem_singleton_self _))⟩
  | @forwardExisting k j i v hi hv =>
    have hreg := hs.existing k j i v (by simp)
    obtain ⟨⟨x, hx, hsx⟩, -⟩ : Arrives spec sh M (g.resultReg k j) v :=
      hops (.forwardExisting k j i v) (List.mem_singleton_self _)
    have hiv : ∀ o, M i = some o → M v = some o := by
      intro o ho
      rw [h.pointer _ i (by rw [hreg]; rfl), hsx] at ho
      rw [hx, ho]
    refine ⟨M, hself, (h.means.dropRef _).forwardTo ?_ hiv,
      hlast (valued_pendingForward hiv) trivial⟩
    rw [Heap.isAvailable, Heap.dropRef_state]
    exact hr.unavailable_installed hs hreg
  | @forwardTo i v hi hv =>
    have hiv : ∀ o, M i = some o → M v = some o := hops (.forwardTo i v) (List.mem_singleton_self _)
    have hun := hr.unavailable_forward (.forwardTo i v) (by simp) (a := i) (by simp [Op.forwards])
    exact ⟨M, hself, h.means.forwardTo hun hiv, hlast (valued_pendingForward hiv) trivial⟩
  | @resolveConcrete a out hp ha hk ho =>
    refine ⟨M, hself, h.means.notifyAvailable (hr.unavailable_promised hp) ho, hone trivial⟩
  | @resolveIndirect a out form ty h' hp ha hk ho hh =>
    have hun := hr.unavailable_promised hp
    have hout : ∀ o, M a = some o → out = o := by
      intro o hM
      rcases h.means.out a o hM with h1 | ⟨-, h1 | h1⟩
      · rw [ho] at h1
        exact Option.some.inj h1
      · rw [hun] at h1
        cases h1
      · rw [ho] at h1
        cases h1
    have hmeans : Means h' (Function.update M sh.heap.next (M a)) := by
      rw [hh]
      exact h.means.allocFresh _ _ (M a) hout
    have hne : a ≠ sh.heap.next := Nat.ne_of_lt ha
    have hiv : ∀ o, Function.update M sh.heap.next (M a) a = some o →
        Function.update M sh.heap.next (M a) sh.heap.next = some o := by
      intro o hM
      rw [Function.update_of_ne hne] at hM
      rw [Function.update_self]
      exact hM
    have hun' : h'.isAvailable a = false := by
      rw [hh, Heap.isAvailable, Heap.alloc_cell, if_neg hne]
      exact hun
    exact ⟨_, fun b hb => Function.update_of_ne (Nat.ne_of_lt hb) _ _, hmeans.forwardTo hun' hiv,
      hlast (valued_pendingForward hiv) trivial⟩
  | dropResult | dropArgument =>
    refine ⟨M, hself, h.means.dropRef _, fun op hop => ?_⟩
    cases hop
  | pseudoUnused | readyNil | skip | dropExecutor =>
    refine ⟨M, hself, h.means, fun op hop => ?_⟩
    cases hop
  | _ => exact ⟨M, hself, h.means, hone trivial⟩

theorem Valued.preserved {α : Type} {arguments : List α} {value : α → Option (Except E V)}
    (hd : Does g start sh old sh' new net)
    (hf : Flow g start sh (↑old + Q)) (hs : Slots g start sh (↑old + Q))
    (hr : Resolving g sh (↑old + Q)) (hc : Counted g start handles sh (↑old + R))
    (hold : ∀ op ∈ old, op.Sound g start sh)
    (hsp : Specified g start eval arguments value spec)
    (hcall : ∀ k args, old = [.callKernel k args none] → ∃ o : Outcome V E,
      (∀ n vals, g.mAsyncNodes[k]? = some n →
        args.map sh.heap.value = vals.map (fun v => some (.ok v)) →
        o.outs.map (Src.value o.fresh vals) = (eval n.mFunc vals).map some) ∧
      callKernel g sh o k args = some (sh', new))
    (h : Valued g spec sh (↑old + Q) M) : ∃ M', Valued g spec sh' (↑net + Q) M' := by
  obtain ⟨M', hag, hmeans, hnet⟩ := hd.means hf hs hr hc hold hsp hcall h
  have hl := hd.later hs hr
  have hops : ∀ op ∈ old, op.Valued g spec sh M := fun op ho => h.ops op (by simp [ho])
  refine ⟨M', hmeans, fun op hop => ?_, fun r a ha => ?_, fun r v hv => ?_⟩
  · rcases Multiset.mem_add.mp hop with ho | ho
    · exact hnet op (Multiset.mem_coe.mp ho)
    · have hm : op ∈ (↑old + Q : Multiset Op) := by simp [ho]
      exact (h.ops op hm).later h.means hl hag (hr.bound op hm)
  · rcases hd.reg_change r with he | ⟨i, c, rfl, he⟩ | ⟨k, j, v, rfl, rfl, he⟩ |
      ⟨k, j, i, v, rfl, rfl, he, -⟩
    · rw [he] at ha
      rw [hag a (hr.bound_reg r a ha)]
      exact h.pointer r a ha
    · rw [he] at ha
      cases ha
      rw [hag a (hr.bound (.installIndirect r a c) (by simp) a (by simp [Op.touches]))]
      exact hops (.installIndirect r a c) (List.mem_singleton_self _)
    · rw [he] at ha
      cases ha
      obtain ⟨⟨o, ho, hso⟩, -⟩ : Arrives spec sh M (g.resultReg k j) a :=
        hops (.casAsyncValuePtr k j a) (List.mem_singleton_self _)
      rw [hag a (h.means.bound a o ho), ho, hso]
    · rw [he] at ha
      cases ha
      have hreg := hs.existing k j a v (by simp)
      have hp : (sh.regs (g.resultReg k j)).ptr = some a := by rw [hreg]; rfl
      rw [hag a (hr.bound_reg _ a hp)]
      exact h.pointer _ a hp
  · rcases hd.reg_change r with he | ⟨i, c, rfl, he⟩ | ⟨k, j, x, rfl, rfl, he⟩ |
      ⟨k, j, i, x, rfl, rfl, he, -⟩
    · rw [he] at hv
      exact (h.delivered r v hv).later h.means hl hag
    · rw [he] at hv
      cases hv
    · rw [he] at hv
      cases hv
      exact Arrives.later (hops (.casAsyncValuePtr k j v) (List.mem_singleton_self _)) h.means hl hag
    · rw [he] at hv
      cases hv
      exact Arrives.later (hops (.forwardExisting k j i v) (List.mem_singleton_self _)) h.means hl
        hag

end Valued

end GraphExecutor

end AsyncLib
