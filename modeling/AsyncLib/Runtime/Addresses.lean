import AsyncLib.Runtime.Runs

/-!
# The addresses of a run

Every address that occurs in a run of `GraphExecutor` is allocated, so that a closure that waits is
never lost. Nothing is assumed here about the graph or about the references of the caller.

* `Op.addrs`: the addresses in an operation. `InHeap`: they are allocated, and so are those in the
  registers and the promised ones. `Does.inHeap`: a step keeps this.
-/

namespace AsyncLib

namespace GraphExecutor

open AsyncValue Sys Agenda

variable {F V E : Type} {g : AsyncGraph F} {start : Nat}

/-- The values that a continuation keeps. -/
def Cont.addrs : Cont → List Addr
  | .addArg _ _ args err => args ++ err.toList
  | .takeResult _ => []

/-- The addresses in an operation. -/
def Op.addrs : Op → List Addr
  | .pseudoAndThen _ a => [a]
  | .addArgs _ _ args err => args ++ err.toList
  | .installIndirect _ ind c => ind :: c.addrs
  | .callKernel _ args err => args ++ err.toList
  | .dropRef a => [a]
  | .processUsedBy _ _ v => [v]
  | .andThen _ _ v => [v]
  | .setAsyncValuePtr _ _ v => [v]
  | .casAsyncValuePtr _ _ v => [v]
  | .forwardExisting _ _ i v => [i, v]
  | .forwardTo i v => [i, v]
  | _ => []

theorem touches_subset (op : Op) : ∀ a ∈ op.touches, a ∈ op.addrs := by
  cases op <;> simp [Op.touches, Op.addrs]

/-- Everything that `sh` and the operations of `A` refer to is allocated. -/
structure InHeap (sh : Shared V E) (A : Multiset Op) : Prop where
  ops : ∀ op ∈ A, ∀ a ∈ op.addrs, a < sh.heap.next
  regs : ∀ r a, (sh.regs r).ptr = some a → a < sh.heap.next
  promised : ∀ a, sh.promised a = true → a < sh.heap.next

section InHeap

variable {sh sh' : Shared V E} {old new net : List Op} {Q : Multiset Op}

@[simp] theorem addRefs_next {κ : Type} (h : Heap V E κ) (as : List Addr) :
    (addRefs h as).next = h.next := by
  induction as generalizing h with
  | nil => rfl
  | cons a as ih => exact (ih _).trans rfl

@[simp] theorem dropReady_next {κ : Type} (h : Heap V E κ) (base : Addr) (fs : List (Fresh V E)) :
    (dropReady h base fs).next = h.next := by
  induction fs generalizing h base with
  | nil => rfl
  | cons f fs ih =>
    rw [dropReady, ih]
    split
    · exact Heap.dropRef_next 1
    · rfl

theorem Cont.resume_regs (c : Cont) (sh : Shared V E) (v : Addr) :
    (c.resume sh v).1.regs = sh.regs := by
  cases c <;> rfl

theorem Cont.resume_promised (c : Cont) (sh : Shared V E) (v : Addr) :
    (c.resume sh v).1.promised = sh.promised := by
  cases c <;> rfl

theorem Cont.resume_addrs {c : Cont} {sh : Shared V E} {v : Addr} {n : Nat}
    (hc : ∀ a ∈ c.addrs, a < n) (hv : v < n) :
    ∀ op ∈ (c.resume sh v).2, ∀ a ∈ op.addrs, a < n := by
  cases c with
  | addArg k todo args err =>
    intro op hop a ha
    simp only [Cont.resume, List.mem_singleton] at hop
    subst hop
    simp only [Op.addrs, List.append_assoc, List.mem_append, List.mem_singleton] at ha
    rcases ha with ha | rfl | ha
    · exact hc a (List.mem_append_left _ ha)
    · exact hv
    · split at ha
      · rw [Option.toList_some, List.mem_singleton] at ha
        exact ha ▸ hv
      · exact hc a (List.mem_append_right _ ha)
  | takeResult r => simp [Cont.resume]

theorem Cont.op_addrs (c : Cont) (r : Nat) : (c.op r).addrs = c.addrs := by
  cases c <;> rfl

theorem Does.next_le (hd : Does g start sh old sh' new net) : sh.heap.next ≤ sh'.heap.next := by
  cases hd with
  | load | install | discard => simp [Cont.resume_heap]
  | resolveIndirect hp ha hk ho hh =>
    subst hh
    simp
  | _ => simp

theorem Does.regs_lt (hd : Does g start sh old sh' new net) (h : InHeap sh (↑old + Q)) (r : Nat)
    (a : Addr) (hr : (sh'.regs r).ptr = some a) : a < sh'.heap.next := by
  have hle := hd.next_le
  have hold : ∀ op ∈ old, ∀ a ∈ op.addrs, a < sh'.heap.next := fun op hop a ha =>
    Nat.lt_of_lt_of_le (h.ops op (Multiset.mem_add.mpr (.inl hop)) a ha) hle
  have hkeep : sh'.regs r = sh.regs r → a < sh'.heap.next := fun he =>
    Nat.lt_of_lt_of_le (h.regs r a (he ▸ hr)) hle
  cases hd with
  | load => exact hkeep (by rw [Cont.resume_regs])
  | @install q ind c hp =>
    rw [Cont.resume_regs] at hr hkeep
    by_cases hq : r = q
    · subst hq
      simp only [Function.update_self] at hr
      cases hr
      exact hold _ (List.mem_singleton.mpr rfl) _ (by simp [Op.addrs])
    · exact hkeep (Function.update_of_ne hq _ _)
  | discard => exact hkeep (by rw [Cont.resume_regs])
  | @store k j v hp =>
    by_cases hq : r = g.resultReg k j
    · subst hq
      simp only [Function.update_self] at hr
      cases hr
      exact hold _ (List.mem_singleton.mpr rfl) _ (by simp [Op.addrs])
    · exact hkeep (Function.update_of_ne hq _ _)
  | @forwardExisting k j i v hi hv =>
    by_cases hq : r = g.resultReg k j
    · subst hq
      simp only [Function.update_self] at hr
      cases hr
      exact hold _ (List.mem_singleton.mpr rfl) _ (by simp [Op.addrs])
    · exact hkeep (Function.update_of_ne hq _ _)
  | _ => exact hkeep rfl

theorem Does.promised_lt (hd : Does g start sh old sh' new net) (h : InHeap sh (↑old + Q)) (a : Addr)
    (ha : sh'.promised a = true) : a < sh'.heap.next := by
  have hle := hd.next_le
  have hkeep : sh.promised a = true → a < sh'.heap.next := fun hp =>
    Nat.lt_of_lt_of_le (h.promised a hp) hle
  cases hd with
  | load => exact hkeep (by rwa [Cont.resume_promised] at ha)
  | install => exact hkeep (by rwa [Cont.resume_promised] at ha)
  | discard => exact hkeep (by rwa [Cont.resume_promised] at ha)
  | call ho hl hb =>
    rcases Bool.or_eq_true _ _ |>.mp ha with hp | hp
    · exact hkeep hp
    · simpa using (promises_lt hp).2
  | @resolveConcrete b out hp hb hk ho =>
    by_cases hab : a = b
    · exact Nat.lt_of_lt_of_le (hab ▸ hb) hle
    · exact hkeep (by simpa only [Function.update_of_ne hab] using ha)
  | @resolveIndirect b out form ty h' hp hb hk ho hh =>
    subst hh
    by_cases hn : a = sh.heap.next
    · subst hn
      simp
    · by_cases hab : a = b
      · exact Nat.lt_of_lt_of_le (hab ▸ hb) hle
      · exact hkeep (by simpa only [Function.update_of_ne hn, Function.update_of_ne hab] using ha)
  | _ => exact hkeep ha

theorem pendingForward_addrs {h : Heap V E Closure} {i v : Addr} {n : Nat} (hi : i < n) (hv : v < n) :
    ∀ op ∈ pendingForward h i v, ∀ a ∈ op.addrs, a < n := by
  intro op hop a ha
  unfold pendingForward at hop
  split at hop
  · cases hop
  · cases List.mem_singleton.mp hop
    simp only [Op.addrs, List.mem_cons, List.not_mem_nil, or_false] at ha
    rcases ha with rfl | rfl
    · exact hi
    · exact hv

theorem afterCall_addrs {k n : Nat} {args outs : List Addr} (ha : ∀ a ∈ args, a < n)
    (ho : ∀ a ∈ outs, a < n) : ∀ op ∈ afterCall k args outs, ∀ a ∈ op.addrs, a < n := by
  intro op hop a hmem
  rcases mem_afterCall hop with ⟨b, hb, rfl⟩ | ⟨j, v, hv, rfl⟩
  · cases List.mem_singleton.mp hmem
    exact ha _ hb
  · cases List.mem_singleton.mp hmem
    exact ho _ (List.mem_of_getElem? hv)

/-- Operations with no address, or with addresses of the operation that they replace. -/
theorem addrs_of_subset {l : List Op} {n : Nat} (hold : ∀ op ∈ old, ∀ a ∈ op.addrs, a < n)
    (h : ∀ op ∈ l, ∀ a ∈ op.addrs, ∃ op' ∈ old, a ∈ op'.addrs) :
    ∀ op ∈ l, ∀ a ∈ op.addrs, a < n := by
  intro op hop a ha
  obtain ⟨op', hop', ha'⟩ := h op hop a ha
  exact hold op' hop' a ha'

theorem Does.net_lt (hd : Does g start sh old sh' new net) (h : InHeap sh (↑old + Q)) :
    ∀ op ∈ net, ∀ a ∈ op.addrs, a < sh'.heap.next := by
  have hle := hd.next_le
  have hold : ∀ op ∈ old, ∀ a ∈ op.addrs, a < sh'.heap.next := fun op hop a ha =>
    Nat.lt_of_lt_of_le (h.ops op (Multiset.mem_add.mpr (.inl hop)) a ha) hle
  have hreg : ∀ {r a}, (sh.regs r).ptr = some a → a < sh'.heap.next := fun hp =>
    Nat.lt_of_lt_of_le (h.regs _ _ hp) hle
  cases hd with
  | pseudoWait hp => simpa [Op.addrs] using hreg hp
  | load hc hp =>
    refine Cont.resume_addrs (fun a ha => ?_) (hreg hp)
    exact hold _ (List.mem_singleton.mpr rfl) a (by rwa [Cont.op_addrs])
  | @make r c hc hp =>
    intro op hop a ha
    cases List.mem_singleton.mp hop
    rcases List.mem_cons.mp ha with rfl | ha
    · exact Nat.lt_succ_self _
    · exact hold _ (List.mem_singleton.mpr rfl) a (by rwa [Cont.op_addrs])
  | install hp =>
    refine Cont.resume_addrs (fun a ha => ?_) ?_
    · exact hold _ (List.mem_singleton.mpr rfl) a (List.mem_cons_of_mem _ ha)
    · exact hold _ (List.mem_singleton.mpr rfl) _ (List.mem_cons_self ..)
  | discard hp =>
    refine Cont.resume_addrs (fun a ha => ?_) (hreg hp)
    exact hold _ (List.mem_singleton.mpr rfl) a (List.mem_cons_of_mem _ ha)
  | @callError k args e =>
    have hin := hold _ (List.mem_singleton.mpr rfl)
    refine afterCall_addrs (fun a ha => hin a (by simp [Op.addrs, ha])) fun a ha => ?_
    rw [List.eq_of_mem_replicate ha]
    exact hin e (by simp [Op.addrs])
  | @call k args outs o ho hl hb =>
    have hin := hold _ (List.mem_singleton.mpr rfl)
    refine afterCall_addrs (fun a ha => hin a (by simp [Op.addrs, ha])) fun a ha => ?_
    simpa using hb a ha
  | @occupied k j v i hp =>
    have hv := hold _ (List.mem_singleton.mpr rfl) v (by simp [Op.addrs])
    have hi := hreg hp
    simp only [forall_eq, Op.addrs, List.mem_cons, List.not_mem_nil, or_false]
    rintro a (rfl | rfl)
    · exact hi
    · exact hv
  | @forwardExisting k j i v hi hv =>
    refine List.forall_mem_append.mpr ⟨pendingForward_addrs ?_ ?_, by simp [Op.addrs]⟩
    · exact Nat.lt_of_lt_of_le hi hle
    · exact Nat.lt_of_lt_of_le hv hle
  | @forwardTo i v hi hv =>
    refine List.forall_mem_append.mpr ⟨pendingForward_addrs ?_ ?_, ?_⟩
    · exact Nat.lt_of_lt_of_le hi hle
    · exact Nat.lt_of_lt_of_le hv hle
    · simpa [Op.addrs] using Nat.lt_of_lt_of_le hi hle
  | @resolveConcrete a out hp ha hk ho =>
    simpa [Op.addrs] using ha
  | @resolveIndirect a out form ty h' hp ha hk ho hh =>
    subst hh
    have ha' : a < sh.heap.next + 1 := Nat.lt_succ_of_lt ha
    refine List.forall_mem_append.mpr ⟨pendingForward_addrs ?_ ?_, ?_⟩
    · simpa using ha'
    · simp
    · simpa [Op.addrs] using ha'
  | @addArgsNil k args err => exact addrs_of_subset hold (by simp [Op.addrs])
  | @decrease u =>
    intro op hop a ha
    split at hop
    · cases List.mem_singleton.mp hop
      cases ha
    · cases hop
  | @readyCons k ks =>
    intro op hop a ha
    simp only [List.mem_append, List.mem_map, List.mem_cons, List.not_mem_nil, or_false] at hop
    rcases hop with ⟨k', -, rfl⟩ | rfl | rfl <;> cases ha
  | pseudoAndThen => exact addrs_of_subset hold (by simp [Op.addrs, waiterCode])
  | andThen => exact addrs_of_subset hold (by simp [Op.addrs, waiterCode])
  | enqueue => exact addrs_of_subset hold (by simp [Op.addrs, taskFrame, Frame.ops])
  | _ => exact addrs_of_subset hold (by simp [Op.addrs])

theorem Does.inHeap (hd : Does g start sh old sh' new net) (h : InHeap sh (↑old + Q)) :
    InHeap sh' (↑net + Q) where
  ops op hop a ha := by
    rcases Multiset.mem_add.mp hop with hop | hop
    · exact hd.net_lt h op hop a ha
    · exact Nat.lt_of_lt_of_le (h.ops op (Multiset.mem_add.mpr (.inr hop)) a ha) hd.next_le
  regs := hd.regs_lt h
  promised := hd.promised_lt h

end InHeap

end GraphExecutor

end AsyncLib
