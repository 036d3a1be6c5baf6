import AsyncLib.Runtime.Counting

/-!
# The invariant of all runs

* `Does.grows`: the heap only grows: kinds, values and the states of available values stay.
* `Resolving.preserved`: nobody resolves a value twice.
* `Safe`: the invariants together, of a state. `Safe.step`: every step keeps them, as long as the
  caller drops results only after their delivery; `Safe.init`: they hold initially.
-/

namespace AsyncLib

namespace GraphExecutor

open AsyncValue Sys Agenda

variable {F V E : Type} {g : AsyncGraph F} {start : Nat}

/-! ## Growth -/

section Growth

variable {κ : Type} {h : Heap V E κ}

theorem grows_addRefs (h : Heap V E κ) (as : List Addr) : h.Grows (addRefs h as) := by
  induction as generalizing h with
  | nil => exact .refl h
  | cons a as ih => exact (Heap.Grows.addRef h a 1).trans (ih _)

theorem grows_allocAll (h : Heap V E κ) (fs : List (Fresh V E)) : h.Grows (allocAll h fs) := by
  induction fs generalizing h with
  | nil => exact .refl h
  | cons f fs ih => exact (Heap.Grows.alloc h (f.cell 1)).trans (ih _)

theorem grows_dropReady (h : Heap V E κ) (base : Addr) (fs : List (Fresh V E)) :
    h.Grows (dropReady h base fs) := by
  induction fs generalizing h base with
  | nil => exact .refl h
  | cons f fs ih =>
    rw [dropReady]
    refine .trans ?_ (ih _ _)
    split
    · exact .dropRef h base 1
    · exact .refl h

theorem addRefs_state (h : Heap V E κ) (as : List Addr) (b : Addr) :
    ((addRefs h as).cell b).state = (h.cell b).state := by
  induction as generalizing h with
  | nil => rfl
  | cons a as ih => exact (ih _).trans (Heap.addRef_state 1 b)

theorem dropReady_state (h : Heap V E κ) (base : Addr) (fs : List (Fresh V E)) (b : Addr) :
    ((dropReady h base fs).cell b).state = (h.cell b).state := by
  induction fs generalizing h base with
  | nil => rfl
  | cons f fs ih =>
    rw [dropReady, ih]
    split
    · exact Heap.dropRef_state 1 b
    · rfl

theorem addRefs_waiters (h : Heap V E κ) (as : List Addr) (b : Addr) :
    ((addRefs h as).cell b).waiters = (h.cell b).waiters := by
  induction as generalizing h with
  | nil => rfl
  | cons a as ih => exact (ih _).trans (Heap.addRef_waiters 1 b)

theorem dropReady_waiters (h : Heap V E κ) (base : Addr) (fs : List (Fresh V E)) (b : Addr) :
    ((dropReady h base fs).cell b).waiters = (h.cell b).waiters := by
  induction fs generalizing h base with
  | nil => rfl
  | cons f fs ih =>
    rw [dropReady, ih]
    split
    · exact Heap.dropRef_waiters 1 b
    · rfl

@[simp] theorem allocAll_next (h : Heap V E κ) (fs : List (Fresh V E)) :
    (allocAll h fs).next = h.next + fs.length := by
  induction fs generalizing h with
  | nil => rfl
  | cons f fs ih =>
    show (allocAll (h.alloc (f.cell 1)) fs).next = _
    rw [ih, Heap.alloc_next, List.length_cons]
    exact Nat.add_right_comm h.next 1 fs.length

/-- The values that a kernel made. -/
theorem allocAll_cell (h : Heap V E κ) (fs : List (Fresh V E)) (base : Nat) (hb : h.next = base)
    (b : Nat) : (allocAll h fs).cell b =
      if base ≤ b then fs[b - base]?.elim (h.cell b) fun f => f.cell 1 else h.cell b := by
  induction fs generalizing h base with
  | nil => simp [allocAll]
  | cons f fs ih =>
    show (allocAll (h.alloc (f.cell 1)) fs).cell b = _
    rw [ih (h.alloc (f.cell 1)) (base + 1) (by rw [Heap.alloc_next, hb]), Heap.alloc_cell,
      hb]
    rcases Nat.lt_trichotomy b base with hlt | heq | hgt
    · have h1 : ¬ base + 1 ≤ b := by omega
      rw [if_neg h1, if_neg (Nat.ne_of_lt hlt), if_neg (Nat.not_le_of_lt hlt)]
    · subst heq
      rw [if_neg (Nat.not_succ_le_self b), if_pos rfl, if_pos (Nat.le_refl b), Nat.sub_self]
      rfl
    · obtain ⟨d, rfl⟩ : ∃ d, b = base + 1 + d := ⟨b - (base + 1), by omega⟩
      have h1 : base + 1 + d - base = d + 1 := by omega
      have h2 : base + 1 + d - (base + 1) = d := by omega
      rw [if_pos (Nat.le_add_right _ _), if_neg (Nat.ne_of_gt hgt), if_pos (Nat.le_of_lt hgt), h1,
        h2, List.getElem?_cons_succ]

end Growth

section Steps

variable {handles : Addr → Nat} {sh sh' : Shared V E} {A B R Q : Multiset Op}
  {old new net : List Op}

/-- The heap only grows. -/
theorem Does.grows (hd : Does g start sh old sh' new net) (hs : Slots g start sh (↑old + R))
    (hr : Resolving g sh (↑old + R)) : sh.heap.Grows sh'.heap := by
  cases hd with
  | pseudoAndThen ha => exact .andThen ..
  | andThen hv => exact .andThen ..
  | @load q c v hc hp =>
    rw [c.resume_heap]
    exact .refl _
  | make hc hp => exact .alloc ..
  | @install q ind c hp =>
    rw [c.resume_heap]
    exact .refl _
  | @discard q ind v c hp =>
    rw [c.resume_heap]
    exact .dropRef ..
  | callError => exact grows_addRefs ..
  | call ho hl hb =>
    exact (grows_allocAll _ _).trans ((grows_addRefs _ _).trans (grows_dropReady _ _ _))
  | dropRef => exact .dropRef ..
  | set => exact .addRef ..
  | @forwardExisting k j i v hi hv =>
    have hreg := hs.existing k j i v (by simp)
    refine (Heap.Grows.dropRef _ _ _).trans (.forwardTo ?_)
    rw [Heap.isAvailable, Heap.dropRef_state]
    exact hr.unavailable_installed hs hreg
  | @forwardTo i v hi hv =>
    exact .forwardTo (hr.unavailable_forward (.forwardTo i v) (by simp)
      (by simp [Op.forwards]))
  | resolveConcrete hp ha hk ho => exact .notifyAvailable (hr.unavailable_promised hp)
  | @resolveIndirect a out form ty h hp ha hk ho hh =>
    subst hh
    refine (Heap.Grows.alloc _ _).trans (.forwardTo ?_)
    rw [Heap.isAvailable, Heap.alloc_cell, if_neg (Nat.ne_of_lt ha)]
    exact hr.unavailable_promised hp
  | dropResult | dropArgument => exact .dropRef ..
  | _ => exact .refl _

/-! ## Nobody resolves a value twice -/

/-- What an operation is going to forward or install is among the values it touches. -/
theorem mem_touches {op : Op} {a : Addr} (h : 0 < op.forwards a) : a ∈ op.touches := by
  cases op with
  | installIndirect r ind c =>
    simp only [Op.forwards, Pi.single_apply] at h
    split at h
    · rename_i ha
      simp [Op.touches, ha]
    · omega
  | forwardTo i v =>
    simp only [Op.forwards, Pi.single_apply] at h
    split at h
    · rename_i ha
      simp [Op.touches, ha]
    · omega
  | _ => exact absurd h (Nat.lt_irrefl 0)

theorem forwards_resume (c : Cont) (v a : Addr) :
    ((c.resume sh v).2.map fun op => op.forwards a).sum = 0 := by
  cases c <;> rfl

theorem forwards_afterCall (k : Nat) (args outs : List Addr) (a : Addr) :
    ((afterCall k args outs).map fun op => op.forwards a).sum = 0 := by
  simp [afterCall, Op.forwards, Function.comp_def]

theorem forwards_pendingForward (h : Heap V E Closure) (i v a : Addr) :
    ((pendingForward h i v).map fun op => op.forwards a).sum =
      if a = i ∧ h.isAvailable v = false then 1 else 0 := by
  unfold pendingForward
  cases hv : h.isAvailable v with
  | true => simp
  | false => simp [Op.forwards, Pi.single_apply]

/-- `ForwardTo` resolves the value, or leaves a closure that will. -/
theorem resolved_forwardTo {h : Heap V E Closure} {i v : Addr} (hun : h.isAvailable i = false)
    (a : Addr) : ((pendingForward h i v).map fun op => op.forwards a).sum +
      resolved (h.forwardTo i v).1 a = resolved h a + if a = i then 1 else 0 := by
  have hav : (h.forwardTo i v).1.isAvailable a =
      if a = i ∧ h.isAvailable v = true then true else h.isAvailable a := by
    rw [Heap.isAvailable, Heap.forwardTo_state]
    split
    · rename_i hc
      exact hc.2
    · rfl
  rw [forwards_pendingForward, resolved, resolved, hav]
  by_cases ha : a = i
  · subst ha
    cases hv : h.isAvailable v <;> simp [hun]
  · simp [ha]

theorem resolved_congr {h h' : Heap V E Closure} {a : Addr}
    (he : (h'.cell a).state = (h.cell a).state) : resolved h' a = resolved h a := by
  unfold resolved Heap.isAvailable
  rw [he]

theorem andThen_state {κ : Type} (h : Heap V E κ) (b : Addr) (w : Waiter κ) (a : Addr) :
    ((h.andThen b w).1.cell a).state = (h.cell a).state := by
  unfold Heap.andThen
  split
  · rfl
  · rw [Heap.modify_cell]
    split
    · rename_i ha
      rw [ha]
    · rfl

/-- Who is going to resolve `a` and is not among the operations that a step leaves alone. -/
def parties (g : AsyncGraph F) (sh : Shared V E) (l : List Op) (a : Addr) : Nat :=
  (l.map fun op => op.forwards a).sum + (if sh.promised a then 1 else 0) + installs g sh a +
    resolved sh.heap a

theorem resolvers_split (l : List Op) (a : Addr) : resolvers g sh (↑l + R) a + resolved sh.heap a =
    parties g sh l a + weight Op.forwards R a := by
  simp only [resolvers, parties, weight_add, weight_coe]
  omega

/-- A step that leaves registers and promises alone. -/
theorem parties_le {a : Addr} (h1 : sh'.regs = sh.regs) (h2 : sh'.promised = sh.promised)
    (h3 : (net.map fun op => op.forwards a).sum + resolved sh'.heap a ≤
      (old.map fun op => op.forwards a).sum + resolved sh.heap a) :
    parties g sh' net a ≤ parties g sh old a := by
  unfold parties installs
  rw [h1, h2]
  omega

/-- Nobody has anything to do with a value that is not allocated. -/
theorem Resolving.untouched (hr : Resolving g sh A) (hc : Counted g start handles sh B) {a : Nat}
    (ha : sh.heap.next ≤ a) :
    weight Op.forwards A a = 0 ∧ sh.promised a = false ∧ installs g sh a = 0 := by
  refine ⟨?_, ?_, ?_⟩
  · refine Nat.eq_zero_of_not_pos fun hpos => ?_
    obtain ⟨op, hop, hf⟩ := exists_of_weight_pos _ _ hpos
    have := hr.bound op hop a (mem_touches hf)
    exact absurd ha (Nat.not_le_of_lt this)
  · cases hp : sh.promised a with
    | false => rfl
    | true => exact absurd ha (Nat.not_le_of_lt (hc.lt_next (hc.pos_promised hp)))
  · refine Finset.sum_eq_zero fun r _ => if_neg fun hi => ?_
    have := hr.bound_reg r a (by rw [hi]; rfl)
    exact absurd ha (Nat.not_le_of_lt this)

/-- A value that is resolved later is not available yet. -/
theorem unavailable_of_promised {κ : Type} {f : Fresh V E} {n : Nat} (hf : f.form ≠ .ready) :
    (f.cell n : Cell V E κ).state.isAvailable = false := by
  cases hform : f.form with
  | ready => exact absurd hform hf
  | later => simp [Fresh.cell, hform, State.isAvailable]
  | indirect => simp [Fresh.cell, hform, State.isAvailable]

/-- Installing, storing or forwarding changes one register. -/
theorem installs_update (sh : Shared V E) {r : Nat} (hr : r < g.numRegs) (x : Reg) (a : Addr) :
    installs g { sh with regs := Function.update sh.regs r x } a +
        (if sh.regs r = .installed a then 1 else 0) =
      installs g sh a + if x = .installed a then 1 else 0 := by
  have := sum_change (fun q => if sh.regs q = .installed a then 1 else 0)
    (fun q => if Function.update sh.regs r x q = .installed a then 1 else 0)
    (Finset.mem_range.mpr hr) fun q hq => by simp [Function.update_of_ne hq]
  simpa [installs] using this

theorem parties_eq {l : List Op} {a : Addr} {n i z : Nat} {p : Bool}
    (h1 : (l.map fun op => op.forwards a).sum = n) (h2 : sh.promised a = p)
    (h3 : installs g sh a = i) (h4 : resolved sh.heap a = z) :
    parties g sh l a = n + (if p then 1 else 0) + i + z := by
  unfold parties
  rw [h1, h2, h3, h4]

/-- A step passes the task of resolving a value on, or resolves it, or makes the value. -/
theorem Does.parties (hw : g.Wired start) (hd : Does g start sh old sh' new net)
    (hf : Flow g start sh (↑old + R)) (hs : Slots g start sh (↑old + R))
    (hr : Resolving g sh (↑old + R)) (hc : Counted g start handles sh B) (a : Nat) :
    GraphExecutor.parties g sh' net a ≤ GraphExecutor.parties g sh old a ∨
      (sh.heap.next ≤ a ∧ GraphExecutor.parties g sh' net a ≤ 1) := by
  have hvalid : ∀ op ∈ old, op.Valid g start := fun op h => hf.valid op (by simp [h])
  have hone : ∀ h : Heap V E Closure, resolved h a ≤ 1 := fun h => by unfold resolved; split <;> omega
  cases hd with
  | pseudoAndThen ha => exact .inl (parties_le rfl rfl (by rw [resolved_congr (andThen_state ..)]; rfl))
  | andThen hv => exact .inl (parties_le rfl rfl (by rw [resolved_congr (andThen_state ..)]; rfl))
  | decreaseAll => exact .inl (parties_le rfl rfl (by simp [Op.forwards, Function.comp_def]))
  | decrease =>
    refine .inl (parties_le rfl rfl (Nat.add_le_add_right ?_ _))
    split <;> exact Nat.le_refl _
  | readyCons => exact .inl (parties_le rfl rfl (by simp [Op.forwards, Function.comp_def]))
  | @load q c v hcont hp =>
    obtain ⟨-, h1, -, h2, -⟩ := c.resume_fields sh v
    refine .inl (parties_le h1 h2 ?_)
    rw [forwards_resume, c.resume_heap]
    exact Nat.add_le_add_right (Nat.zero_le _) _
  | @make q c hcont hp =>
    by_cases ha : a = sh.heap.next
    · obtain ⟨-, h2, h3⟩ := hr.untouched hc (Nat.le_of_eq ha.symm)
      have h1 : ([Op.installIndirect q sh.heap.next c].map fun op => op.forwards a).sum = 1 := by
        simp [Op.forwards, ha]
      have h4 : resolved (sh.heap.alloc (indirectCell (g.userCount q + 1))) a = 0 := by
        simp [resolved, Heap.isAvailable, Heap.alloc_cell, ha, indirectCell, State.isAvailable]
      exact .inr ⟨Nat.le_of_eq ha.symm, le_of_eq_of_le (parties_eq h1 h2 h3 h4) (Nat.le_refl 1)⟩
    · have h1 : ([Op.installIndirect q sh.heap.next c].map fun op => op.forwards a).sum = 0 := by
        simp [Op.forwards, ha]
      have h2 : resolved (sh.heap.alloc (indirectCell (g.userCount q + 1))) a = resolved sh.heap a :=
        resolved_congr (by rw [Heap.alloc_cell, if_neg ha])
      refine .inl (parties_le rfl rfl ?_)
      rw [h1, h2]
      exact Nat.add_le_add_right (Nat.zero_le _) _
  | @install q ind c hp =>
    have hlt := Cont.Valid.lt hw (hvalid (.installIndirect q ind c) (by simp))
    have h1 := installs_update sh hlt (.installed ind) a
    simp only [hp, reduceCtorEq, ↓reduceIte, Reg.installed.injEq, Nat.add_zero] at h1
    obtain ⟨-, h2, -, h3, -⟩ :=
      c.resume_fields { sh with regs := Function.update sh.regs q (.installed ind) } ind
    have h4 : installs g
        (c.resume { sh with regs := Function.update sh.regs q (.installed ind) } ind).1 a =
        installs g sh a + if ind = a then 1 else 0 := by
      rw [← h1]
      unfold installs
      rw [h2]
    have h5 : ([Op.installIndirect q ind c].map fun op => op.forwards a).sum =
        if ind = a then 1 else 0 := by
      simp [Op.forwards, Pi.single_apply, eq_comm]
    left
    refine le_of_eq_of_le (parties_eq (p := sh.promised a) (z := resolved sh.heap a)
      (forwards_resume ..) (congrFun h3 a) h4 (congrArg (resolved · a) (c.resume_heap ..))) ?_
    rw [parties_eq h5 rfl rfl rfl]
    omega
  | @discard q ind v c hp =>
    obtain ⟨-, h1, -, h2, -⟩ :=
      c.resume_fields { sh with heap := sh.heap.dropRef ind (g.userCount q + 1) } v
    refine .inl (parties_le h1 h2 ?_)
    rw [forwards_resume, c.resume_heap, resolved_congr (Heap.dropRef_state ..)]
    exact Nat.add_le_add_right (Nat.zero_le _) _
  | callError =>
    refine .inl (parties_le rfl rfl ?_)
    rw [forwards_afterCall, resolved_congr (addRefs_state ..)]
    exact Nat.add_le_add_right (Nat.zero_le _) _
  | @call k args outs o ho hl hb =>
    have hst : resolved (dropReady (addRefs (allocAll sh.heap o.fresh) outs) sh.heap.next o.fresh) a =
        resolved (allocAll sh.heap o.fresh) a :=
      resolved_congr ((dropReady_state ..).trans (addRefs_state ..))
    have hcell := allocAll_cell sh.heap o.fresh sh.heap.next rfl a
    by_cases ha : sh.heap.next ≤ a
    · obtain ⟨-, h2, h3⟩ := hr.untouched hc ha
      have h5 : (sh.promised a || promises sh.heap.next o.fresh a) =
          promises sh.heap.next o.fresh a := by rw [h2, Bool.false_or]
      refine .inr ⟨ha, le_of_eq_of_le (parties_eq (forwards_afterCall ..) h5 h3 hst) ?_⟩
      cases hp : promises sh.heap.next o.fresh a with
      | false =>
        have := hone (allocAll sh.heap o.fresh)
        simpa using this
      | true =>
        have h4 : resolved (allocAll sh.heap o.fresh) a = 0 := by
          rw [if_pos ha] at hcell
          simp only [promises, Bool.and_eq_true] at hp
          cases hfr : o.fresh[a - sh.heap.next]? with
          | none => simp [hfr] at hp
          | some f =>
            simp only [hfr, Option.elim_some, decide_eq_true_eq] at hp hcell
            unfold resolved Heap.isAvailable
            rw [hcell, unavailable_of_promised hp.2]
            rfl
        simp [h4]
    · have hp : promises sh.heap.next o.fresh a = false := by
        cases hp : promises sh.heap.next o.fresh a with
        | false => rfl
        | true => exact absurd (promises_lt hp).1 ha
      have h5 : (sh.promised a || promises sh.heap.next o.fresh a) = sh.promised a := by
        rw [hp, Bool.or_false]
      rw [if_neg ha] at hcell
      exact .inl (Nat.le_of_eq (parties_eq (forwards_afterCall ..) h5 rfl
        (hst.trans (resolved_congr (congrArg Cell.state hcell)))))
  | dropRef => exact .inl (parties_le rfl rfl (by rw [resolved_congr (Heap.dropRef_state ..)]; rfl))
  | set => exact .inl (parties_le rfl rfl (by rw [resolved_congr (Heap.addRef_state ..)]; rfl))
  | @store k j v hp =>
    have hv : Op.Valid g start (.casAsyncValuePtr k j v) := hvalid _ (by simp)
    have h1 := installs_update sh (hw.reg_lt hv.2) (.direct v) a
    simp only [hp, reduceCtorEq, ↓reduceIte, Nat.add_zero] at h1
    exact .inl (Nat.le_of_eq (parties_eq rfl rfl h1 rfl))
  | @forwardExisting k j i v hi hv =>
    have hreg := hs.existing k j i v (by simp)
    have hval : Op.Valid g start (.forwardExisting k j i v) := hvalid _ (by simp)
    have h1 := installs_update sh (hw.reg_lt hval.2) (.forwarded i v) a
    simp only [hreg, reduceCtorEq, ↓reduceIte, Reg.installed.injEq, Nat.add_zero] at h1
    have hun : (sh.heap.dropRef v (refAddValue g (g.resultReg k j))).isAvailable i = false := by
      rw [Heap.isAvailable, Heap.dropRef_state]
      exact hr.unavailable_installed hs hreg
    have h2 := resolved_forwardTo (v := v) hun a
    have hp : pendingForward (sh.heap.dropRef v (refAddValue g (g.resultReg k j))) i v =
        pendingForward sh.heap i v := by
      unfold pendingForward Heap.isAvailable
      rw [Heap.dropRef_state]
    rw [hp, resolved_congr (Heap.dropRef_state ..)] at h2
    have h3 : ((pendingForward sh.heap i v ++ [Op.decreaseReadyCounts k j]).map
        fun op => op.forwards a).sum = ((pendingForward sh.heap i v).map
        fun op => op.forwards a).sum := by
      rw [List.map_append, List.sum_append]
      rfl
    left
    simp only [GraphExecutor.parties, h3, List.map_singleton, List.sum_singleton]
    have h5 : (Op.forwardExisting k j i v).forwards a = 0 := rfl
    rw [h5]
    simp only [@eq_comm _ a i] at h2
    have h4 : installs g { sh with
        heap := ((sh.heap.dropRef v (refAddValue g (g.resultReg k j))).forwardTo i v).1
        regs := Function.update sh.regs (g.resultReg k j) (.forwarded i v) } a =
      installs g { sh with regs := Function.update sh.regs (g.resultReg k j) (.forwarded i v) } a :=
      rfl
    omega
  | @forwardTo i v hi hv =>
    have hun := hr.unavailable_forward (.forwardTo i v) (by simp) (a := i)
      (by simp [Op.forwards])
    have h1 := resolved_forwardTo (v := v) hun a
    have h2 : ([Op.forwardTo i v].map fun op => op.forwards a).sum = if a = i then 1 else 0 := by
      simp [Op.forwards, Pi.single_apply]
    refine .inl (parties_le rfl rfl ?_)
    rw [List.map_append, List.sum_append, h2]
    show _ + 0 + resolved (sh.heap.forwardTo i v).1 a ≤ _
    omega
  | @resolveConcrete b out hp hb hk ho =>
    left
    by_cases ha : a = b
    · have hun := hr.unavailable_promised hp
      have h1 : (stateOf out).isAvailable = true := by cases out <;> rfl
      have h2 : resolved (sh.heap.notifyAvailable b (stateOf out)).1 a = 1 := by
        rw [resolved, Heap.isAvailable, Heap.notifyAvailable_cell, if_pos ha, if_pos h1]
      have h3 : Function.update sh.promised b false a = false := by rw [ha, Function.update_self]
      have h4 : resolved sh.heap a = 0 := by rw [resolved, ha, hun]; rfl
      refine le_of_eq_of_le (parties_eq (n := 0) (i := installs g sh a) rfl h3 rfl h2) ?_
      rw [parties_eq (n := 0) rfl (ha ▸ hp) rfl h4]
      simp only [Bool.false_eq_true, ↓reduceIte]
      omega
    · have h2 : resolved (sh.heap.notifyAvailable b (stateOf out)).1 a = resolved sh.heap a :=
        resolved_congr (by rw [Heap.notifyAvailable_cell, if_neg ha])
      exact Nat.le_of_eq (parties_eq rfl (Function.update_of_ne ha _ _) rfl h2)
  | @resolveIndirect b out form ty h hp hb hk ho hh =>
    have hun : h.isAvailable b = false := by
      rw [hh, Heap.isAvailable, Heap.alloc_cell, if_neg (Nat.ne_of_lt hb)]
      exact hr.unavailable_promised hp
    have h1 := resolved_forwardTo (v := sh.heap.next) hun a
    have h2 : ((pendingForward h b sh.heap.next ++ [Op.dropRef b]).map fun op => op.forwards a).sum =
        ((pendingForward h b sh.heap.next).map fun op => op.forwards a).sum := by
      rw [List.map_append, List.sum_append]
      rfl
    by_cases hn : a = sh.heap.next
    · obtain ⟨-, -, h4⟩ := hr.untouched hc (Nat.le_of_eq hn.symm)
      have hab : ¬ a = b := fun he => Nat.ne_of_lt hb (he.symm.trans hn)
      have h3 : Function.update (Function.update sh.promised b false) sh.heap.next
          (decide (form ≠ .ready)) a = decide (form ≠ .ready) := by
        rw [hn, Function.update_self]
      have h5 : (if decide (form ≠ .ready) = true then 1 else 0) + resolved h a ≤ 1 := by
        cases hform : form with
        | ready => simpa using hone h
        | later | indirect =>
          have : resolved h a = 0 := by
            rw [resolved, Heap.isAvailable, hh, Heap.alloc_cell, if_pos hn,
              unavailable_of_promised (by simp [hform])]
            rfl
          simp [this]
      refine .inr ⟨Nat.le_of_eq hn.symm, le_of_eq_of_le (parties_eq
        (z := resolved (h.forwardTo b sh.heap.next).1 a) h2 h3 h4 rfl) ?_⟩
      rw [if_neg hab] at h1
      omega
    · have h3 : Function.update (Function.update sh.promised b false) sh.heap.next
          (decide (form ≠ .ready)) a = if a = b then false else sh.promised a := by
        rw [Function.update_of_ne hn, Function.update_apply]
      have h4 : resolved h a = resolved sh.heap a :=
        resolved_congr (by rw [hh, Heap.alloc_cell, if_neg hn])
      left
      refine le_of_eq_of_le (parties_eq (i := installs g sh a)
        (z := resolved (h.forwardTo b sh.heap.next).1 a) h2 h3 rfl rfl) ?_
      by_cases hab : a = b
      · rw [if_pos hab] at h1 ⊢
        rw [parties_eq (n := 0) rfl (hab ▸ hp) rfl rfl]
        simp only [Bool.false_eq_true, ↓reduceIte]
        omega
      · rw [if_neg hab] at h1 ⊢
        rw [parties_eq (n := 0) rfl rfl rfl rfl]
        omega
  | dropResult | dropArgument =>
    exact .inl (parties_le rfl rfl (by rw [resolved_congr (Heap.dropRef_state ..)]))
  | _ => exact .inl (Nat.le_refl _)

/-- The values that new operations touch are allocated. -/
theorem Does.bound (hd : Does g start sh old sh' new net) (hr : Resolving g sh (↑old + R))
    (hc : Counted g start handles sh (↑old + Q)) (hg : sh.heap.Grows sh'.heap) :
    ∀ op ∈ net, ∀ a ∈ op.touches, a < sh'.heap.next := by
  have hnone : ∀ {l : List Op}, (∀ op ∈ l, op.touches = []) →
      ∀ op ∈ l, ∀ a ∈ op.touches, a < sh'.heap.next := by
    intro l hl op hop a ha
    rw [hl op hop] at ha
    cases ha
  have hpend : ∀ {h : Heap V E Closure} {i v : Addr}, i < sh'.heap.next → v < sh'.heap.next →
      ∀ op ∈ pendingForward h i v, ∀ a ∈ op.touches, a < sh'.heap.next := by
    intro h i v hi hv op hop a ha
    unfold pendingForward at hop
    split at hop
    · cases hop
    · cases List.mem_singleton.mp hop
      simp only [Op.touches, List.mem_cons, List.not_mem_nil, or_false] at ha
      rcases ha with rfl | rfl
      · exact hi
      · exact hv
  have happ : ∀ {l : List Op} {last : Op}, last.touches = [] →
      (∀ op ∈ l, ∀ a ∈ op.touches, a < sh'.heap.next) →
      ∀ op ∈ l ++ [last], ∀ a ∈ op.touches, a < sh'.heap.next := by
    intro l last h0 hl op hop a ha
    rcases List.mem_append.mp hop with h | h
    · exact hl op h a ha
    · rw [List.mem_singleton.mp h, h0] at ha
      cases ha
  have halive : ∀ (op : Op) {a : Addr}, op ∈ old → 0 < op.refs g a → a < sh'.heap.next := by
    intro op a hop ha
    exact Nat.lt_of_lt_of_le (hc.lt_next (hc.pos_op op (by simp [hop]) ha)) hg.next
  cases hd with
  | @pseudoWait j a hp =>
    intro op hop b hb
    cases List.mem_singleton.mp hop
    cases List.mem_singleton.mp hb
    exact hr.bound_reg _ _ hp
  | @make q c hcont hp =>
    intro op hop b hb
    cases List.mem_singleton.mp hop
    cases List.mem_singleton.mp hb
    exact Nat.lt_succ_self _
  | @usedByWait k j v hu =>
    intro op hop b hb
    cases List.mem_singleton.mp hop
    cases List.mem_singleton.mp hb
    exact halive (.processUsedBy k j v) (by simp) (by simp [Op.refs])
  | @occupied k j v i hp =>
    intro op hop b hb
    cases List.mem_singleton.mp hop
    simp only [Op.touches, List.mem_cons, List.not_mem_nil, or_false] at hb
    rcases hb with rfl | rfl
    · exact hr.bound_reg _ _ hp
    · exact halive (.casAsyncValuePtr k j b) (by simp) (by simp [Op.refs])
  | @load q c => exact hnone (by cases c <;> simp [Cont.resume, Op.touches])
  | @install q ind c => exact hnone (by cases c <;> simp [Cont.resume, Op.touches])
  | @discard q ind v c => exact hnone (by cases c <;> simp [Cont.resume, Op.touches])
  | @forwardExisting k j i v hi hv =>
    exact happ rfl (hpend (Nat.lt_of_lt_of_le hi hg.next) (Nat.lt_of_lt_of_le hv hg.next))
  | @forwardTo i v hi hv =>
    exact happ rfl (hpend (Nat.lt_of_lt_of_le hi hg.next) (Nat.lt_of_lt_of_le hv hg.next))
  | @resolveIndirect b out form ty h hp hb hk ho hh =>
    refine happ rfl (hpend (Nat.lt_of_lt_of_le hb hg.next) ?_)
    subst hh
    simp
  | resolveConcrete => exact hnone (by simp [Op.touches])
  | callError =>
    refine hnone fun op hop => ?_
    rcases mem_afterCall hop with ⟨a, -, rfl⟩ | ⟨j, v, -, rfl⟩ <;> rfl
  | call =>
    refine hnone fun op hop => ?_
    rcases mem_afterCall hop with ⟨a, -, rfl⟩ | ⟨j, v, -, rfl⟩ <;> rfl
  | decrease => exact hnone (by split <;> simp [Op.touches])
  | decreaseAll => exact hnone (by simp [Op.touches])
  | readyCons => exact hnone (by simp [Op.touches, or_imp, forall_and])
  | enqueue => exact hnone (by simp [taskFrame, Frame.ops, Op.touches])
  | _ => exact hnone (by simp [waiterCode, Op.touches])

/-- The values that new operations forward or install are indirect. -/
theorem Does.kind (hd : Does g start sh old sh' new net) (hs : Slots g start sh (↑old + R))
    (hr : Resolving g sh (↑old + R)) (hg : sh.heap.Grows sh'.heap) :
    ∀ op ∈ net, ∀ i, 0 < op.forwards i → (sh'.heap.cell i).mKind = .kIndirect := by
  have hnone : ∀ {l : List Op}, (∀ op ∈ l, op.forwards = 0) →
      ∀ op ∈ l, ∀ i, 0 < op.forwards i → (sh'.heap.cell i).mKind = .kIndirect := by
    intro l hl op hop i hi
    rw [hl op hop] at hi
    exact absurd hi (Nat.lt_irrefl 0)
  have hpend : ∀ {h : Heap V E Closure} {i v : Addr}, (sh'.heap.cell i).mKind = .kIndirect →
      ∀ op ∈ pendingForward h i v, ∀ a, 0 < op.forwards a → (sh'.heap.cell a).mKind = .kIndirect := by
    intro h i v hi op hop a ha
    unfold pendingForward at hop
    split at hop
    · cases hop
    · cases List.mem_singleton.mp hop
      simp only [Op.forwards, Pi.single_apply] at ha
      split at ha
      · rename_i he
        rw [he]
        exact hi
      · exact absurd ha (Nat.lt_irrefl 0)
  have happ : ∀ {l : List Op} {last : Op}, last.forwards = 0 →
      (∀ op ∈ l, ∀ i, 0 < op.forwards i → (sh'.heap.cell i).mKind = .kIndirect) →
      ∀ op ∈ l ++ [last], ∀ i, 0 < op.forwards i → (sh'.heap.cell i).mKind = .kIndirect := by
    intro l last h0 hl op hop a ha
    rcases List.mem_append.mp hop with h | h
    · exact hl op h a ha
    · rw [List.mem_singleton.mp h, h0] at ha
      exact absurd ha (Nat.lt_irrefl 0)
  cases hd with
  | @make q c hcont hp =>
    intro op hop i hi
    cases List.mem_singleton.mp hop
    simp only [Op.forwards, Pi.single_apply] at hi
    split at hi
    · rename_i he
      subst he
      simp [Heap.alloc_cell, indirectCell]
    · exact absurd hi (Nat.lt_irrefl 0)
  | @load q c => exact hnone (by cases c <;> simp [Cont.resume, Op.forwards])
  | @install q ind c => exact hnone (by cases c <;> simp [Cont.resume, Op.forwards])
  | @discard q ind v c => exact hnone (by cases c <;> simp [Cont.resume, Op.forwards])
  | @forwardExisting k j i v hi hv =>
    refine happ rfl (hpend ?_)
    rw [hg.mKind i hi]
    exact hr.kind_installed _ i (hs.existing k j i v (by simp))
  | @forwardTo i v hi hv =>
    refine happ rfl (hpend ?_)
    rw [hg.mKind i hi]
    exact hr.kind (.forwardTo i v) (by simp) i (by simp [Op.forwards])
  | @resolveIndirect b out form ty h hp hb hk ho hh =>
    refine happ rfl (hpend ?_)
    rw [hg.mKind b hb]
    exact hk
  | resolveConcrete => exact hnone (by simp [Op.forwards])
  | callError =>
    refine hnone fun op hop => ?_
    rcases mem_afterCall hop with ⟨a, -, rfl⟩ | ⟨j, v, -, rfl⟩ <;> rfl
  | call =>
    refine hnone fun op hop => ?_
    rcases mem_afterCall hop with ⟨a, -, rfl⟩ | ⟨j, v, -, rfl⟩ <;> rfl
  | decrease => exact hnone (by split <;> simp [Op.forwards])
  | decreaseAll => exact hnone (by simp [Op.forwards])
  | readyCons => exact hnone (by simp [Op.forwards, or_imp, forall_and])
  | enqueue => exact hnone (by simp [taskFrame, Frame.ops, Op.forwards])
  | _ => exact hnone (by simp [waiterCode, Op.forwards])

/-- A register points at an allocated value, and an installed one at an indirect value. -/
theorem Does.registers (hd : Does g start sh old sh' new net) (hs : Slots g start sh (↑old + R))
    (hr : Resolving g sh (↑old + R)) (hc : Counted g start handles sh (↑old + Q))
    (hg : sh.heap.Grows sh'.heap) (r : Nat) :
    (∀ a, (sh'.regs r).ptr = some a → a < sh'.heap.next) ∧
      ∀ i, sh'.regs r = .installed i → (sh'.heap.cell i).mKind = .kIndirect := by
  have hsame : sh'.regs r = sh.regs r → (∀ a, (sh'.regs r).ptr = some a → a < sh'.heap.next) ∧
      ∀ i, sh'.regs r = .installed i → (sh'.heap.cell i).mKind = .kIndirect := by
    intro he
    rw [he]
    refine ⟨fun a ha => Nat.lt_of_lt_of_le (hr.bound_reg r a ha) hg.next, fun i hi => ?_⟩
    rw [hg.mKind i (hr.bound_reg r i (by rw [hi]; rfl))]
    exact hr.kind_installed r i hi
  cases hd with
  | @load q c v => exact hsame (congrFun (c.resume_fields sh v).2.1 r)
  | @discard q ind v c =>
    exact hsame (congrFun
      (c.resume_fields { sh with heap := sh.heap.dropRef ind (g.userCount q + 1) } v).2.1 r)
  | @install q ind c hp =>
    have hregs : (c.resume { sh with regs := Function.update sh.regs q (.installed ind) } ind).1.regs
        r = Function.update sh.regs q (.installed ind) r := congrFun (c.resume_fields _ _).2.1 r
    by_cases hq : r = q
    · subst hq
      rw [Function.update_self] at hregs
      have hlt := hr.bound (.installIndirect r ind c) (by simp) ind (by simp [Op.touches])
      rw [hregs]
      refine ⟨fun a ha => ?_, fun i hi => ?_⟩
      · cases ha
        exact Nat.lt_of_lt_of_le hlt hg.next
      · cases hi
        rw [hg.mKind ind hlt]
        exact hr.kind (.installIndirect r ind c) (by simp) ind (by simp [Op.forwards])
    · rw [Function.update_of_ne hq] at hregs
      exact hsame hregs
  | @store k j v hp =>
    by_cases hq : r = g.resultReg k j
    · subst hq
      have hpos := hc.pos_op (.casAsyncValuePtr k j v) (by simp) (a := v) (by simp [Op.refs])
      simp only [Function.update_self]
      refine ⟨fun a ha => ?_, fun i hi => by cases hi⟩
      cases ha
      exact hc.lt_next hpos
    · exact hsame (Function.update_of_ne hq _ _)
  | @forwardExisting k j i v hi hv =>
    by_cases hq : r = g.resultReg k j
    · subst hq
      simp only [Function.update_self]
      refine ⟨fun a ha => ?_, fun b hb => by cases hb⟩
      cases ha
      exact Nat.lt_of_lt_of_le hi hg.next
    · exact hsame (Function.update_of_ne hq _ _)
  | _ => exact hsame rfl

theorem Resolving.preserved (hw : g.Wired start) (hd : Does g start sh old sh' new net)
    (hf : Flow g start sh (↑old + R)) (hs : Slots g start sh (↑old + R))
    (hr : Resolving g sh (↑old + R)) (hc : Counted g start handles sh (↑old + Q)) :
    Resolving g sh' (↑net + R) where
  once := by
    intro a
    have h1 := hr.once a
    rw [resolvers_split] at h1 ⊢
    rcases hd.parties hw hf hs hr hc a with h | ⟨hle, h⟩
    · omega
    · have h2 := (hr.untouched hc hle).1
      rw [weight_add] at h2
      omega
  kind := by
    intro op hop i hi
    have hg := hd.grows hs hr
    rcases Multiset.mem_add.mp hop with h | h
    · exact hd.kind hs hr hg op (Multiset.mem_coe.mp h) i hi
    · have hm : op ∈ (↑old + R : Multiset Op) := by simp [h]
      rw [hg.mKind i (hr.bound op hm i (mem_touches hi))]
      exact hr.kind op hm i hi
  kind_installed := fun r => (hd.registers hs hr hc (hd.grows hs hr) r).2
  bound := by
    intro op hop a ha
    have hg := hd.grows hs hr
    rcases Multiset.mem_add.mp hop with h | h
    · exact hd.bound hr hc hg op (Multiset.mem_coe.mp h) a ha
    · exact Nat.lt_of_lt_of_le (hr.bound op (by simp [h]) a ha) hg.next
  bound_reg := fun r => (hd.registers hs hr hc (hd.grows hs hr) r).1

end Steps

end GraphExecutor

end AsyncLib
