import AsyncLib.Runtime.Registers

/-!
# Reference counts over a run

Who holds references to the values of a run: the caller, the work that has promised a value, the
registers (one reference for each read that is still to come), the entries of `results`, and the
operations that are under way. Every step keeps the counts right.

* `Op.refs`, `Closure.refs`: the references of operations and closures. `Op.reads`: the reads of a
  register that an operation is going to make; `uses` counts those that are still to come.
* `entryRefs`: the references that belong to a register and its slot. The caller's own reference to
  an argument is counted at its register; a slot that was filled from a start register has no
  reference of its own, so dropping it takes the caller's.
* `owed`: all of them. `Counted`: the counts are what `owed` says.
-/

namespace AsyncLib

namespace GraphExecutor

open AsyncValue Sys Agenda

variable {F V E : Type} {g : AsyncGraph F} {start : Nat}

/-! ## Holders -/

/-- The references of the arguments collected so far. -/
def Cont.refs : Cont → Addr → Nat
  | .addArg _ _ args _ => fun x => args.count x
  | .takeResult _ => 0

/-- The references that an operation holds. -/
def Op.refs (g : AsyncGraph F) : Op → Addr → Nat
  | .addArgs _ _ args _ => fun x => args.count x
  | .installIndirect r ind c => Pi.single ind (g.userCount r + 1) + c.refs
  | .callKernel _ args _ => fun x => args.count x
  | .dropRef a => Pi.single a 1
  | .processUsedBy _ _ v => Pi.single v 1
  | .andThen _ _ v => Pi.single v 1
  | .setAsyncValuePtr _ _ v => Pi.single v 1
  | .casAsyncValuePtr k j v => Pi.single v (refAddValue g (g.resultReg k j) + 1)
  | .forwardExisting k j _ v => Pi.single v (refAddValue g (g.resultReg k j) + 1)
  | .forwardTo i v => Pi.single i 1 + Pi.single v 1
  | _ => 0

/-- The references that a closure of the executor holds. -/
def Closure.refs : Closure → Addr → Nat
  | .setAndDecrease _ _ v => Pi.single v 1
  | .decrease _ => 0

/-- The reads of a register that an operation is going to make. -/
def Op.reads : Op → Nat → Nat
  | .addArgs _ todo _ _ => fun r => todo.count r
  | .installIndirect r _ (.addArg _ todo _ _) => fun q => (r :: todo).count q
  | _ => 0

/-- The reads of a register that are still to come. -/
def uses (g : AsyncGraph F) (sh : Shared V E) (B : Multiset Op) (r : Nat) : Nat :=
  unlogged g sh.log (fun n => (g.argumentsIdx n).count r) + weight Op.reads B r

/-- The references of a register besides those for its reads: the caller's own for an argument, the
one that goes to `results` for an output, and the one of an indirect value that nobody takes. -/
def entryBase (g : AsyncGraph F) (start r : Nat) (reg : Reg) (slot : Slot) : Nat :=
  if r ∈ g.resultsIndex start then if slot = .dropped then 0 else 1
  else if g.userCount r = 0 then if slot = .empty then 1 else 0
  else if reg.isIndirect then 1 else 0

/-- The reference of an entry of `results`. -/
def slotRefs (g : AsyncGraph F) (start r : Nat) : Slot → Addr → Nat
  | .held a => if r ∈ g.resultsIndex start then 0 else Pi.single a 1
  | _ => 0

/-- The references of a register with `u` reads to come, and of its slot. -/
def entryRefs (g : AsyncGraph F) (start r : Nat) (reg : Reg) (slot : Slot) (u : Nat) : Addr → Nat :=
  (reg.ptr.elim 0 fun a => Pi.single a (u + entryBase g start r reg slot)) + slotRefs g start r slot

/-- The references of all registers and slots. -/
def entries (g : AsyncGraph F) (start : Nat) (sh : Shared V E) (u : Nat → Nat) : Addr → Nat :=
  fun x => ∑ r ∈ Finset.range g.numRegs, entryRefs g start r (sh.regs r) (sh.results r) (u r) x

/-- The references of the work that has promised a value. -/
def promisedRefs (sh : Shared V E) : Addr → Nat := fun a => if sh.promised a then 1 else 0

/-- The references of operations. -/
def opRefs (g : AsyncGraph F) (l : List Op) : Addr → Nat := fun x => (l.map fun op => op.refs g x).sum

/-- The references of everybody but some operations. -/
def rest (g : AsyncGraph F) (start : Nat) (handles : Addr → Nat) (sh : Shared V E) (u : Nat → Nat)
    (R : Multiset Op) : Addr → Nat :=
  handles + promisedRefs sh + entries g start sh u + weight (Op.refs g) R

/-- All references that are not held inside the heap. -/
def owed (g : AsyncGraph F) (start : Nat) (handles : Addr → Nat) (sh : Shared V E)
    (B : Multiset Op) : Addr → Nat := rest g start handles sh (uses g sh B) B

section Sums

variable {handles : Addr → Nat} {sh sh' : Shared V E} {R : Multiset Op} {old new : List Op}
  {u u' : Nat → Nat}

theorem owed_split : owed g start handles sh (↑old + R) =
    rest g start handles sh (uses g sh (↑old + R)) R + opRefs g old := by
  funext x
  simp only [owed, rest, Pi.add_apply, weight_add, weight_coe, opRefs]
  omega

theorem rest_congr (h1 : sh'.regs = sh.regs) (h2 : sh'.results = sh.results)
    (h3 : sh'.promised = sh.promised) (hu : u' = u) :
    rest g start handles sh' u' R = rest g start handles sh u R := by
  unfold rest entries promisedRefs
  rw [h1, h2, h3, hu]

theorem uses_congr (h1 : sh'.log = sh.log)
    (h2 : ∀ r, (new.map fun op => op.reads r).sum = (old.map fun op => op.reads r).sum) :
    uses g sh' (↑new + R) = uses g sh (↑old + R) := by
  funext r
  simp only [uses, weight_add, weight_coe, h1, h2]

/-- Sums of functions that differ in one place. -/
theorem sum_change (f f' : Nat → Nat) {s : Finset Nat} {r : Nat} (hr : r ∈ s)
    (h : ∀ q, q ≠ r → f' q = f q) : ∑ q ∈ s, f' q + f r = ∑ q ∈ s, f q + f' r := by
  rw [← Finset.add_sum_erase s f' hr, ← Finset.add_sum_erase s f hr]
  have : ∑ q ∈ s.erase r, f' q = ∑ q ∈ s.erase r, f q :=
    Finset.sum_congr rfl fun q hq => h q (Finset.ne_of_mem_erase hq)
  omega

/-- A step that changes the register `r` only. -/
theorem rest_change (start : Nat) (handles : Addr → Nat) (sh sh' : Shared V E) (u u' : Nat → Nat)
    {r : Nat} (hr : r < g.numRegs) (hp : sh'.promised = sh.promised)
    (h : ∀ q, q ≠ r → sh'.regs q = sh.regs q ∧ sh'.results q = sh.results q ∧ u' q = u q) :
    rest g start handles sh' u' R + entryRefs g start r (sh.regs r) (sh.results r) (u r) =
      rest g start handles sh u R + entryRefs g start r (sh'.regs r) (sh'.results r) (u' r) := by
  funext x
  have hs := sum_change (fun q => entryRefs g start q (sh.regs q) (sh.results q) (u q) x)
    (fun q => entryRefs g start q (sh'.regs q) (sh'.results q) (u' q) x)
    (Finset.mem_range.mpr hr) fun q hq => by
      obtain ⟨h1, h2, h3⟩ := h q hq
      rw [h1, h2, h3]
  simp only [rest, entries, promisedRefs, Pi.add_apply, hp]
  omega

theorem opRefs_append (l l' : List Op) : opRefs g (l ++ l') = opRefs g l + opRefs g l' := by
  funext x
  simp [opRefs]

theorem opRefs_singleton (op : Op) : opRefs g [op] = op.refs g := by
  funext x
  simp [opRefs]

theorem opRefs_waiterCode (w : Waiter Closure) :
    opRefs g (waiterCode start w) = w.refs Closure.refs := by
  funext x
  match w with
  | .forward i v => simp [opRefs, waiterCode, Op.refs, Waiter.refs]
  | .client (.setAndDecrease k j v) => simp [opRefs, waiterCode, Op.refs, Waiter.refs, Closure.refs]
  | .client (.decrease j) => simp [opRefs, waiterCode, Op.refs, Waiter.refs, Closure.refs]

theorem opRefs_waiterOps (ws : List (Waiter Closure)) :
    opRefs g (waiterOps start ws) = (ws.map (Waiter.refs Closure.refs)).sum := by
  induction ws with
  | nil => rfl
  | cons w ws ih =>
    rw [waiterOps, List.flatMap_cons, opRefs_append, opRefs_waiterCode, List.map_cons,
      List.sum_cons, ← ih, waiterOps]

theorem opRefs_afterCall (k : Nat) (args outs : List Addr) :
    opRefs g (afterCall k args outs) = (fun x => args.count x) + fun x => outs.count x := by
  funext x
  simp only [opRefs, afterCall, List.map_append, List.sum_append, List.map_map, Pi.add_apply]
  congr 1
  · exact sum_map_single args x
  · have h : outs.zipIdx.map ((fun op => op.refs g x) ∘ fun p : Addr × Nat =>
        Op.processUsedBy k p.2 p.1) = outs.map fun a => (Pi.single a 1 : Addr → Nat) x := by
      conv_rhs => rw [← List.zipIdx_map_fst 0 outs, List.map_map]
      rfl
    rw [h]
    exact sum_map_single outs x

theorem reads_afterCall (k : Nat) (args outs : List Addr) (r : Nat) :
    ((afterCall k args outs).map fun op => op.reads r).sum = 0 := by
  simp [afterCall, Op.reads, Function.comp_def]

theorem reads_waiterOps (ws : List (Waiter Closure)) (r : Nat) :
    ((waiterOps start ws).map fun op => op.reads r).sum = 0 := by
  induction ws with
  | nil => rfl
  | cons w ws ih =>
    rw [waiterOps, List.flatMap_cons, List.map_append, List.sum_append]
    refine (Nat.add_eq_zero_iff.mpr ⟨?_, ih⟩)
    cases w with
    | forward i v => rfl
    | client c =>
      cases c with
      | setAndDecrease k j v => rfl
      | decrease j => rfl

end Sums

/-! ## What a kernel does to the counts -/

section Kernel

variable {κ : Type} {own : κ → Addr → Nat} {h : Heap V E κ} {X : Addr → Nat}

/-- One reference to each of `n` values from `base` on. -/
def freshRefs (base n : Nat) : Nat → Nat := fun x =>
  if base ≤ x ∧ x < base + n then 1 else 0

theorem freshRefs_zero (base : Nat) : freshRefs base 0 = 0 := by
  funext x
  have : ¬ (base ≤ x ∧ x < base + 0) := by omega
  simp only [freshRefs, if_neg this, Pi.zero_apply]

theorem freshRefs_succ (base n : Nat) :
    freshRefs base (n + 1) = Pi.single base 1 + freshRefs (base + 1) n := by
  funext x
  simp only [freshRefs, Pi.add_apply, Pi.single_apply]
  by_cases h : x = base
  · subst h
    simp
  · simp only [h, ↓reduceIte, Nat.zero_add]
    exact if_congr (by constructor <;> intro hc <;> omega) rfl rfl

theorem Ok.allocAll (fs : List (Fresh V E)) (hk : h.Ok own X) :
    (allocAll h fs).Ok own (X + freshRefs h.next fs.length) := by
  induction fs generalizing h X with
  | nil =>
    refine hk.congr ?_
    rw [List.length_nil, freshRefs_zero, add_zero]
  | cons f fs ih =>
    have hcell : (f.cell 1 : Cell V E κ).mKind = .kIndirect →
        (f.cell 1 : Cell V E κ).state.isAvailable = false := by
      cases hf : f.form <;> simp [Fresh.cell, hf, State.isAvailable]
    have h1 := ih (hk.alloc (c := f.cell 1) rfl rfl hcell)
    refine h1.congr ?_
    rw [List.length_cons, freshRefs_succ]
    exact add_assoc _ _ _

theorem Ok.addRefs (as : List Addr) (hk : h.Ok own X) (ha : ∀ a ∈ as, 0 < h.refs a) :
    (addRefs h as).Ok own (X + fun x => as.count x) := by
  induction as generalizing h X with
  | nil => exact hk
  | cons a as ih =>
    have h1 := hk.addRef (ha a (by simp)) 1
    have h2 := ih h1 fun b hb => by
      rw [Heap.refs_addRef]
      have := ha b (by simp [hb])
      omega
    refine h2.congr ?_
    funext x
    simp only [Pi.add_apply, List.count_cons, Pi.single_apply, beq_iff_eq, @eq_comm _ a x]
    omega

theorem promises_cons (base : Nat) (f : Fresh V E) (fs : List (Fresh V E)) (a : Nat) :
    promises base (f :: fs) a =
      ((decide (a = base) && decide (f.form ≠ .ready)) || promises (base + 1) fs a) := by
  unfold promises
  by_cases h1 : a = base
  · subst h1
    have : ¬ a + 1 ≤ a := Nat.not_succ_le_self a
    simp [this]
  · by_cases h2 : base ≤ a
    · obtain ⟨d, rfl⟩ : ∃ d, a = base + 1 + d := ⟨a - (base + 1), by omega⟩
      have h3 : base + 1 + d - base = d + 1 := by omega
      have h4 : base + 1 + d - (base + 1) = d := by omega
      have h5 : base ≤ base + 1 + d := by omega
      have h6 : base + 1 ≤ base + 1 + d := by omega
      simp [h1, h3, h4, h5]
    · have h3 : ¬ base + 1 ≤ a := by omega
      simp [h1, h2, h3]

theorem promises_base (base : Nat) (fs : List (Fresh V E)) : promises (base + 1) fs base = false := by
  have : ¬ base + 1 ≤ base := Nat.not_succ_le_self base
  simp [promises, this]

theorem Ok.dropReady (base : Nat) (fs : List (Fresh V E))
    (hk : h.Ok own (X + freshRefs base fs.length)) :
    (dropReady h base fs).Ok own (X + fun x => if promises base fs x then 1 else 0) := by
  induction fs generalizing h X base with
  | nil =>
    refine hk.congr ?_
    rw [List.length_nil, freshRefs_zero, add_zero]
    funext x
    simp [promises]
  | cons f fs ih =>
    rw [List.length_cons, freshRefs_succ] at hk
    rw [GraphExecutor.dropReady]
    by_cases hf : f.form = .ready
    · rw [if_pos hf]
      have h1 : h.Ok own (X + freshRefs (base + 1) fs.length + Pi.single base 1) :=
        hk.congr (by abel)
      refine (ih (base + 1) (h1.dropRef (h1.pos (by simp)))).congr ?_
      funext x
      simp [promises_cons, hf]
    · rw [if_neg hf]
      have h1 : h.Ok own (X + Pi.single base 1 + freshRefs (base + 1) fs.length) :=
        hk.congr (by abel)
      refine (ih (base + 1) h1).congr ?_
      funext x
      simp only [Pi.add_apply, promises_cons, Pi.single_apply]
      by_cases hx : x = base
      · subst hx
        simp [hf, promises_base]
      · simp [hx]

end Kernel

end GraphExecutor

end AsyncLib
