import Mathlib.Algebra.Order.Group.Multiset
import AsyncLib.Runtime.Executor

/-!
# What a step of the executor can do

Which thread executes an operation, and where its frame lies in a stack, is irrelevant to all that
is proved about runs. A step takes some operations off the agenda, changes the shared state, and
puts other operations on it.

* `running`: the operations of the queue and of all threads. `waitingOps`: those of the closures
  that wait for a value.
* `Does g start sh old sh' new net`: the steps. `old` is replaced by `new` among the running
  operations; among all operations, waiting ones included, it is replaced by `net`
  (`Does.waiting`).
* `step_does`: every step of the system is one of these.
-/

namespace AsyncLib

namespace GraphExecutor

open AsyncValue Sys Agenda

variable {F V E : Type} {g : AsyncGraph F} {start : Nat}

/-! ## The agenda -/

/-- The operations of a frame; a ready kernel is one that is going to be processed. -/
def Frame.ops (f : Frame) : List Op := f.ready.map .processReadyKernel ++ f.code

/-- The operations of the queue and of the threads. -/
def St.running (s : St V E) : Multiset Op :=
  ↑(s.queue.flatMap fun k => (taskFrame k).ops) + ↑(s.threads.flatMap fun st => st.flatMap Frame.ops)

/-- The operations of the closures that wait for a value. -/
def waitingOps (start : Nat) (h : Heap V E Closure) : Multiset Op :=
  Heap.waiting (fun w => (↑(waiterCode start w) : Multiset Op)) h

/-- The operations of the closures `ws`. -/
def waiterOps (start : Nat) (ws : List (Waiter Closure)) : List Op := ws.flatMap (waiterCode start)

theorem waiterFrames_ops (ws : List (Waiter Closure)) :
    (waiterFrames start ws).flatMap Frame.ops = waiterOps start ws := by
  simp [waiterFrames, waiterOps, List.flatMap_map, Frame.ops]

theorem sum_waiterCode (ws : List (Waiter Closure)) :
    (ws.map fun w => (↑(waiterCode start w) : Multiset Op)).sum = ↑(waiterOps start ws) := by
  induction ws with
  | nil => rfl
  | cons w ws ih =>
    rw [List.map_cons, List.sum_cons, ih, waiterOps, waiterOps, List.flatMap_cons,
      ← Multiset.coe_add]

/-- The operation that calls `GetOrCreateAsyncValuePtr` on `r`. -/
def Cont.op (r : Nat) : Cont → Op
  | .addArg k todo args err => .addArgs k (r :: todo) args err
  | .takeResult r' => .getResult r'

/-- A result is taken from its own register. -/
def Cont.For (r : Nat) : Cont → Prop
  | .addArg _ _ _ _ => True
  | .takeResult r' => r' = r

/-- The closure of `ForwardTo`, if it has to wait. -/
def pendingForward (h : Heap V E Closure) (i v : Addr) : List Op :=
  if h.isAvailable v then [] else [.forwardTo i v]

/-- The values that an operation waits for, installs or forwards. -/
def Op.touches : Op → List Addr
  | .pseudoAndThen _ a => [a]
  | .installIndirect _ ind _ => [ind]
  | .andThen _ _ v => [v]
  | .forwardTo i v => [i, v]
  | .forwardExisting _ _ i v => [i, v]
  | _ => []

/-- The operations after a call. -/
theorem mem_afterCall {k : Nat} {args outs : List Addr} {op : Op} (h : op ∈ afterCall k args outs) :
    (∃ a ∈ args, op = .dropRef a) ∨ ∃ j v, outs[j]? = some v ∧ op = .processUsedBy k j v := by
  rcases List.mem_append.mp h with h | h
  · obtain ⟨a, ha, rfl⟩ := List.mem_map.mp h
    exact .inl ⟨a, ha, rfl⟩
  · obtain ⟨⟨v, j⟩, hp, rfl⟩ := List.mem_map.mp h
    exact .inr ⟨j, v, List.mk_mem_zipIdx_iff_getElem?.mp hp, rfl⟩

/-! ## The steps -/

/-- What a step does to the shared state and to the agenda. -/
inductive Does (g : AsyncGraph F) (start : Nat) (sh : Shared V E) :
    List Op → Shared V E → List Op → List Op → Prop
  | skip : Does g start sh [] sh [] []
  | pseudoFirst : Does g start sh [.pseudoKernel 0] sh [.decreaseReadyCounts start 0]
      [.decreaseReadyCounts start 0]
  | pseudoUnused {j : Nat} (hj : j ≠ 0) (hu : g.userCount (g.resultReg start j) = 0 ∨
      g.getNextUsedBys start j = []) : Does g start sh [.pseudoKernel j] sh [] []
  | pseudoAvailable {j : Nat} {a : Addr} (hp : (sh.regs (g.resultReg start j)).ptr = some a)
      (ha : sh.heap.isAvailable a = true) :
      Does g start sh [.pseudoKernel j] sh [.decreaseReadyCounts start j]
        [.decreaseReadyCounts start j]
  | pseudoWait {j : Nat} {a : Addr} (hp : (sh.regs (g.resultReg start j)).ptr = some a) :
      Does g start sh [.pseudoKernel j] sh [.pseudoAndThen j a] [.pseudoAndThen j a]
  | pseudoAndThen {j : Nat} {a : Addr} (ha : a < sh.heap.next) :
      Does g start sh [.pseudoAndThen j a]
        { sh with
          heap := (sh.heap.andThen a (.client (.decrease j))).1
          mRefCount := sh.mRefCount + 1 }
        (waiterOps start (sh.heap.andThen a (.client (.decrease j))).2)
        (waiterCode start (.client (.decrease j)))
  | decreaseAll {k j : Nat} : Does g start sh [.decreaseReadyCounts k j] sh
      ((g.getNextUsedBys k j).map .decreaseReadyCount)
      ((g.getNextUsedBys k j).map .decreaseReadyCount)
  | decrease {u : Nat} : Does g start sh [.decreaseReadyCount u]
      { sh with
        mArgumentsNotReady :=
          Function.update sh.mArgumentsNotReady u (sh.mArgumentsNotReady u - 1) }
      (if sh.mArgumentsNotReady u = 1 then [.processReadyKernel u] else [])
      (if sh.mArgumentsNotReady u = 1 then [.processReadyKernel u] else [])
  | readyNil : Does g start sh [.processReadyKernels] sh [] []
  | readyCons {k : Nat} {ks : List Nat} : Does g start sh
      (.processReadyKernels :: .processReadyKernel k :: ks.map .processReadyKernel) sh
      (ks.map .enqueueWork ++ [.processReadyKernel k, .processReadyKernels])
      (ks.map .enqueueWork ++ [.processReadyKernel k, .processReadyKernels])
  | enqueue {k : Nat} : Does g start sh [.enqueueWork k]
      { sh with mRefCount := sh.mRefCount + 1 } (taskFrame k).ops (taskFrame k).ops
  | process {k : Nat} : Does g start sh [.processReadyKernel k] { sh with log := k :: sh.log }
      [.addArgs k (g.argumentsIdx k) [] none] [.addArgs k (g.argumentsIdx k) [] none]
  | addArgsNil {k : Nat} {args : List Addr} {err : Option Addr} :
      Does g start sh [.addArgs k [] args err] sh [.callKernel k args err]
        [.callKernel k args err]
  | load {r : Nat} {c : Cont} {v : Addr} (hc : c.For r) (hp : (sh.regs r).ptr = some v) :
      Does g start sh [c.op r] (c.resume sh v).1 (c.resume sh v).2 (c.resume sh v).2
  | make {r : Nat} {c : Cont} (hc : c.For r) (hp : sh.regs r = .empty) :
      Does g start sh [c.op r]
        { sh with heap := sh.heap.alloc (indirectCell (g.userCount r + 1)) }
        [.installIndirect r sh.heap.next c] [.installIndirect r sh.heap.next c]
  | install {r : Nat} {ind : Addr} {c : Cont} (hp : sh.regs r = .empty) :
      Does g start sh [.installIndirect r ind c]
        (c.resume { sh with regs := Function.update sh.regs r (.installed ind) } ind).1
        (c.resume { sh with regs := Function.update sh.regs r (.installed ind) } ind).2
        (c.resume { sh with regs := Function.update sh.regs r (.installed ind) } ind).2
  | discard {r : Nat} {ind v : Addr} {c : Cont} (hp : (sh.regs r).ptr = some v) :
      Does g start sh [.installIndirect r ind c]
        (c.resume { sh with heap := sh.heap.dropRef ind (g.userCount r + 1) } v).1
        (c.resume { sh with heap := sh.heap.dropRef ind (g.userCount r + 1) } v).2
        (c.resume { sh with heap := sh.heap.dropRef ind (g.userCount r + 1) } v).2
  | callError {k : Nat} {args : List Addr} {e : Addr} :
      Does g start sh [.callKernel k args (some e)]
        { sh with heap := addRefs sh.heap (List.replicate (g.numResults k) e) }
        (afterCall k args (List.replicate (g.numResults k) e))
        (afterCall k args (List.replicate (g.numResults k) e))
  | call {k : Nat} {args outs : List Addr} {o : Outcome V E}
      (ho : o.outs.mapM (Src.addr sh.heap.next args) = some outs)
      (hl : outs.length = g.numResults k) (hb : ∀ a ∈ outs, a < sh.heap.next + o.fresh.length) :
      Does g start sh [.callKernel k args none]
        { sh with
          heap := dropReady (addRefs (allocAll sh.heap o.fresh) outs) sh.heap.next o.fresh
          promised := fun a => sh.promised a || promises sh.heap.next o.fresh a
          returned := sh.returned ++ outs }
        (afterCall k args outs) (afterCall k args outs)
  | dropRef {a : Addr} : Does g start sh [.dropRef a] { sh with heap := sh.heap.dropRef a 1 } [] []
  | usedBySet {k j : Nat} {v : Addr}
      (hv : g.getNextUsedBys k j = [] ∨ sh.heap.isAvailable v = true) :
      Does g start sh [.processUsedBy k j v] sh [.setAsyncValuePtr k j v] [.setAsyncValuePtr k j v]
  | usedByWait {k j : Nat} {v : Addr} (hu : g.getNextUsedBys k j ≠ []) :
      Does g start sh [.processUsedBy k j v] sh [.andThen k j v] [.andThen k j v]
  | andThen {k j : Nat} {v : Addr} (hv : v < sh.heap.next) :
      Does g start sh [.andThen k j v]
        { sh with
          heap := (sh.heap.andThen v (.client (.setAndDecrease k j v))).1
          mRefCount := sh.mRefCount + 1 }
        (waiterOps start (sh.heap.andThen v (.client (.setAndDecrease k j v))).2)
        (waiterCode start (.client (.setAndDecrease k j v)))
  | set {k j : Nat} {v : Addr} :
      Does g start sh [.setAsyncValuePtr k j v]
        { sh with heap := sh.heap.addRef v (refAddValue g (g.resultReg k j)) }
        [.casAsyncValuePtr k j v] [.casAsyncValuePtr k j v]
  | store {k j : Nat} {v : Addr} (hp : sh.regs (g.resultReg k j) = .empty) :
      Does g start sh [.casAsyncValuePtr k j v]
        { sh with regs := Function.update sh.regs (g.resultReg k j) (.direct v) }
        [.decreaseReadyCounts k j] [.decreaseReadyCounts k j]
  | occupied {k j : Nat} {v i : Addr} (hp : (sh.regs (g.resultReg k j)).ptr = some i) :
      Does g start sh [.casAsyncValuePtr k j v] sh [.forwardExisting k j i v]
        [.forwardExisting k j i v]
  | forwardExisting {k j : Nat} {i v : Addr} (hi : i < sh.heap.next) (hv : v < sh.heap.next) :
      Does g start sh [.forwardExisting k j i v]
        { sh with
          heap := ((sh.heap.dropRef v (refAddValue g (g.resultReg k j))).forwardTo i v).1
          regs := Function.update sh.regs (g.resultReg k j) (.forwarded i v) }
        (waiterOps start ((sh.heap.dropRef v (refAddValue g (g.resultReg k j))).forwardTo i v).2 ++
          [.decreaseReadyCounts k j])
        (pendingForward sh.heap i v ++ [.decreaseReadyCounts k j])
  | forwardTo {i v : Addr} (hi : i < sh.heap.next) (hv : v < sh.heap.next) :
      Does g start sh [.forwardTo i v] { sh with heap := (sh.heap.forwardTo i v).1 }
        (waiterOps start (sh.heap.forwardTo i v).2 ++ [.dropRef i])
        (pendingForward sh.heap i v ++ [.dropRef i])
  | dropExecutor : Does g start sh [.dropExecutor] { sh with mRefCount := sh.mRefCount - 1 } [] []
  | resolveConcrete {a : Addr} {out : Except E V} (hp : sh.promised a = true) (ha : a < sh.heap.next)
      (hk : (sh.heap.cell a).mKind = .kConcrete) (ho : (sh.heap.cell a).out = some out) :
      Does g start sh []
        { sh with
          heap := (sh.heap.notifyAvailable a (stateOf out)).1
          promised := Function.update sh.promised a false }
        (waiterOps start (sh.heap.notifyAvailable a (stateOf out)).2 ++ [.dropRef a]) [.dropRef a]
  | resolveIndirect {a : Addr} {out : Except E V} {form : Form} {ty : Nat} {h : Heap V E Closure}
      (hp : sh.promised a = true) (ha : a < sh.heap.next)
      (hk : (sh.heap.cell a).mKind = .kIndirect) (ho : (sh.heap.cell a).out = some out)
      (hh : h = sh.heap.alloc ((⟨form, ty, out⟩ : Fresh V E).cell (if form = .ready then 1 else 2))) :
      Does g start sh []
        { sh with
          heap := (h.forwardTo a sh.heap.next).1
          promised := Function.update (Function.update sh.promised a false) sh.heap.next
            (decide (form ≠ .ready)) }
        (waiterOps start (h.forwardTo a sh.heap.next).2 ++ [.dropRef a])
        (pendingForward h a sh.heap.next ++ [.dropRef a])
  | dropResult {r : Nat} {a : Addr} (hr : sh.results r = .held a)
      (hd : (sh.regs r).delivered ≠ none) :
      Does g start sh []
        { sh with
          heap := sh.heap.dropRef a 1, results := Function.update sh.results r .dropped } [] []
  /-- The caller drops its own reference to the argument in `r`. -/
  | dropArgument {r : Nat} {a : Addr} (hst : r ∈ g.resultsIndex start) (hu : g.userCount r ≠ 0)
      (ha : sh.regs r = .direct a) (hr : sh.results r = .empty) :
      Does g start sh []
        { sh with
          heap := sh.heap.dropRef a 1, results := Function.update sh.results r .dropped } [] []

/-! ## Waiting closures -/

section Waiting

variable {h : Heap V E Closure}

theorem waitingOps_forwardTo {i v : Addr} (hi : i < h.next) (hv : v < h.next) :
    waitingOps start (h.forwardTo i v).1 + ↑(waiterOps start (h.forwardTo i v).2) =
      waitingOps start h + ↑(pendingForward h i v) := by
  have := Heap.waiting_forwardTo (fun w => (↑(waiterCode start w) : Multiset Op)) hi hv
  rw [sum_waiterCode] at this
  unfold waitingOps pendingForward
  rw [this]
  split
  · rfl
  · rfl

theorem waitingOps_andThen {a : Addr} (w : Waiter Closure) (ha : a < h.next) :
    waitingOps start (h.andThen a w).1 + ↑(waiterOps start (h.andThen a w).2) =
      waitingOps start h + ↑(waiterCode start w) := by
  have := Heap.waiting_andThen (fun w => (↑(waiterCode start w) : Multiset Op)) w ha
  rw [sum_waiterCode] at this
  exact this

theorem waitingOps_notifyAvailable {a : Addr} (st : State) (ha : a < h.next) :
    waitingOps start (h.notifyAvailable a st).1 + ↑(waiterOps start (h.notifyAvailable a st).2) =
      waitingOps start h := by
  have := Heap.waiting_notifyAvailable (fun w => (↑(waiterCode start w) : Multiset Op)) st ha
  rw [sum_waiterCode] at this
  exact this

@[simp] theorem waitingOps_addRef (a : Addr) (n : Nat) :
    waitingOps start (h.addRef a n) = waitingOps start h := Heap.waiting_addRef ..

@[simp] theorem waitingOps_dropRef (a : Addr) (n : Nat) :
    waitingOps start (h.dropRef a n) = waitingOps start h := Heap.waiting_dropRef ..

theorem waitingOps_alloc {c : Cell V E Closure} (hc : c.waiters = []) :
    waitingOps start (h.alloc c) = waitingOps start h := Heap.waiting_alloc _ c hc

@[simp] theorem waitingOps_addRefs (as : List Addr) :
    waitingOps start (addRefs h as) = waitingOps start h := by
  induction as generalizing h with
  | nil => rfl
  | cons a as ih => exact ih.trans (waitingOps_addRef a 1)

@[simp] theorem waitingOps_allocAll (fs : List (Fresh V E)) :
    waitingOps start (allocAll h fs) = waitingOps start h := by
  induction fs generalizing h with
  | nil => rfl
  | cons f fs ih => exact ih.trans (waitingOps_alloc rfl)

@[simp] theorem waitingOps_dropReady (base : Addr) (fs : List (Fresh V E)) :
    waitingOps start (dropReady h base fs) = waitingOps start h := by
  induction fs generalizing h base with
  | nil => rfl
  | cons f fs ih =>
    rw [dropReady, ih]
    split
    · exact waitingOps_dropRef base 1
    · rfl

end Waiting

theorem Cont.resume_heap (c : Cont) (sh : Shared V E) (v : Addr) :
    (c.resume sh v).1.heap = sh.heap := by
  cases c <;> rfl

/-- Closures that are registered, and closures that run, in one account. -/
theorem Does.waiting {sh sh' : Shared V E} {old new net : List Op}
    (hd : Does g start sh old sh' new net) :
    waitingOps start sh'.heap + ↑new = waitingOps start sh.heap + ↑net := by
  cases hd with
  | pseudoAndThen ha => exact waitingOps_andThen _ ha
  | andThen hv => exact waitingOps_andThen _ hv
  | load hc hp => rw [Cont.resume_heap]
  | install hp => rw [Cont.resume_heap]
  | discard hp => rw [Cont.resume_heap]; simp
  | make hc hp => rw [waitingOps_alloc rfl]
  | @forwardExisting k j i v hi hv =>
    have hp : pendingForward (sh.heap.dropRef v (refAddValue g (g.resultReg k j))) i v =
        pendingForward sh.heap i v := by
      unfold pendingForward Heap.isAvailable
      rw [Heap.dropRef_state]
    rw [← Multiset.coe_add, ← Multiset.coe_add, ← add_assoc,
      waitingOps_forwardTo (by simpa using hi) (by simpa using hv), waitingOps_dropRef, hp,
      add_assoc]
  | forwardTo hi hv =>
    rw [← Multiset.coe_add, ← Multiset.coe_add, ← add_assoc, waitingOps_forwardTo hi hv, add_assoc]
  | resolveConcrete hp ha hk ho =>
    rw [← Multiset.coe_add, ← add_assoc, waitingOps_notifyAvailable _ ha]
  | resolveIndirect hp ha hk ho hh =>
    subst hh
    rw [← Multiset.coe_add, ← Multiset.coe_add, ← add_assoc, ← add_assoc,
      waitingOps_forwardTo (Nat.lt_succ_of_lt ha) (Nat.lt_succ_self _), waitingOps_alloc rfl]
  | _ => simp

/-! ## Every step is one of these -/

/-- The values that are going to be waited for or resolved are allocated. -/
structure Bounded (sh : Shared V E) (running : Multiset Op) : Prop where
  ops : ∀ op ∈ running, ∀ a ∈ op.touches, a < sh.heap.next
  promised : ∀ a, sh.promised a = true → a < sh.heap.next

/-- The caller drops an entry of `results` only when the kernel has delivered it. -/
def DropsDelivered (s : St V E) (l : Label V E) : Prop :=
  ∀ r, l = .dropResult r → (s.sh.regs r).delivered ≠ none

/-- The next operation of thread `t`. -/
def St.next (s : St V E) (t : Nat) : Option Op :=
  match s.threads[t]? with
  | some (f :: _) => f.code.head?
  | _ => none

/-- What a kernel does when it is called is what the label of the step says. -/
def Called (g : AsyncGraph F) (s : St V E) (l : Label V E) (s' : St V E) (old new : List Op) : Prop :=
  ∀ k args, old = [.callKernel k args none] → ∃ t c, l = .run t c ∧
    s.next t = some (.callKernel k args none) ∧
    callKernel g s.sh c.outcome k args = some (s'.sh, new)

/-- All operations that an effect puts on the agenda. -/
def Effect.ops (e : Effect) : List Op :=
  (e.queued.flatMap fun k => (taskFrame k).ops) ++ e.frames.flatMap Frame.ops ++
    e.ready.map .processReadyKernel ++ e.code

theorem Reg.ptr_eq_none {r : Reg} : r.ptr = none ↔ r = .empty := by
  cases r <;> simp [Reg.ptr]

theorem getOrCreate_does {sh : Shared V E} {r : Nat} {c : Cont} (hc : c.For r) :
    Does g start sh [c.op r] (getOrCreateAsyncValuePtr g sh r c).1
      (getOrCreateAsyncValuePtr g sh r c).2 (getOrCreateAsyncValuePtr g sh r c).2 := by
  unfold getOrCreateAsyncValuePtr
  split
  · rename_i hp
    exact .load hc hp
  · rename_i hp
    exact .make hc (Reg.ptr_eq_none.mp hp)

theorem exec_does {sh sh' : Shared V E} {c : Choice V E} {op : Op} {e : Effect}
    (he : exec g start sh c op = some (sh', e)) (hb : ∀ a ∈ op.touches, a < sh.heap.next) :
    ∃ net, Does g start sh [op] sh' e.ops net := by
  cases op with
  | pseudoKernel j =>
    simp only [exec] at he
    split at he
    · rename_i hj
      subst hj
      cases he
      exact ⟨_, .pseudoFirst⟩
    · rename_i hj
      split at he
      · rename_i hu
        cases he
        exact ⟨_, .pseudoUnused hj (.inl hu)⟩
      · split at he
        · cases he
        · rename_i a hp
          split at he
          · rename_i hu
            cases he
            exact ⟨_, .pseudoUnused hj (.inr hu)⟩
          · split at he
            · rename_i ha
              cases he
              exact ⟨_, .pseudoAvailable hp ha⟩
            · cases he
              exact ⟨_, .pseudoWait hp⟩
  | pseudoAndThen j a =>
    cases he
    have : Does g start sh [.pseudoAndThen j a] _ _ _ := .pseudoAndThen (hb a (by simp [Op.touches]))
    exact ⟨_, by simpa [Effect.ops, waiterFrames_ops] using this⟩
  | decreaseReadyCounts k j =>
    cases he
    exact ⟨_, .decreaseAll⟩
  | decreaseReadyCount u =>
    cases he
    have hops : ({ ready := if sh.mArgumentsNotReady u = 1 then [u] else [] } : Effect).ops =
        if sh.mArgumentsNotReady u = 1 then [.processReadyKernel u] else [] := by
      simp only [Effect.ops]
      split <;> rfl
    rw [hops]
    exact ⟨_, .decrease⟩
  | processReadyKernels => cases he
  | enqueueWork k =>
    cases he
    have hops : (if c.inline then { frames := [taskFrame k] } else { queued := [k] } : Effect).ops =
        (taskFrame k).ops := by
      cases c.inline <;> simp [Effect.ops]
    rw [hops]
    exact ⟨_, .enqueue⟩
  | processReadyKernel k =>
    cases he
    exact ⟨_, .process⟩
  | addArgs k todo args err =>
    cases todo with
    | nil =>
      cases he
      exact ⟨_, .addArgsNil⟩
    | cons r todo =>
      cases he
      exact ⟨_, getOrCreate_does (c := .addArg k todo args err) trivial⟩
  | installIndirect r ind cont =>
    simp only [exec] at he
    split at he
    · rename_i hp
      cases he
      exact ⟨_, .install (Reg.ptr_eq_none.mp hp)⟩
    · rename_i v hp
      cases he
      exact ⟨_, .discard hp⟩
  | callKernel k args err =>
    cases err with
    | none =>
      simp only [exec, Option.map_eq_some_iff] at he
      obtain ⟨p, hp, he⟩ := he
      cases he
      unfold callKernel at hp
      split at hp
      · cases hp
      · rename_i outs ho
        split at hp
        · rename_i hg
          cases hp
          exact ⟨_, .call ho hg.1 hg.2⟩
        · cases hp
    | some err =>
      cases he
      exact ⟨_, .callError⟩
  | dropRef a =>
    cases he
    exact ⟨_, .dropRef⟩
  | processUsedBy k j v =>
    simp only [exec] at he
    split at he
    · rename_i hv
      cases he
      exact ⟨_, .usedBySet hv⟩
    · rename_i hv
      cases he
      exact ⟨_, .usedByWait fun h => hv (.inl h)⟩
  | andThen k j v =>
    cases he
    have : Does g start sh [.andThen k j v] _ _ _ := .andThen
      (hb v (by simp [Op.touches]))
    exact ⟨_, by simpa [Effect.ops, waiterFrames_ops] using this⟩
  | setAsyncValuePtr k j v =>
    cases he
    exact ⟨_, .set⟩
  | casAsyncValuePtr k j v =>
    simp only [exec] at he
    split at he
    · rename_i hp
      cases he
      exact ⟨_, .store (Reg.ptr_eq_none.mp hp)⟩
    · rename_i i hp
      cases he
      exact ⟨_, .occupied hp⟩
  | forwardExisting k j i v =>
    cases he
    have : Does g start sh [.forwardExisting k j i v] _ _ _ := .forwardExisting
      (hb i (by simp [Op.touches])) (hb v (by simp [Op.touches]))
    exact ⟨_, by simpa [Effect.ops, waiterFrames_ops] using this⟩
  | forwardTo i v =>
    cases he
    have : Does g start sh [.forwardTo i v] _ _ _ := .forwardTo
      (hb i (by simp [Op.touches])) (hb v (by simp [Op.touches]))
    exact ⟨_, by simpa [Effect.ops, waiterFrames_ops] using this⟩
  | getResult r =>
    cases he
    exact ⟨_, getOrCreate_does (c := .takeResult r) rfl⟩
  | dropExecutor =>
    cases he
    exact ⟨_, .dropExecutor⟩

/-- The agenda of a thread whose top frame executes `op`. -/
theorem replaced_exec {f : Frame} {op : Op} {rest : List Op} (hf : f.code = op :: rest) (e : Effect)
    (stack : List Frame) :
    Replaced ((f :: stack).flatMap Frame.ops) [op]
      (e.frames.flatMap Frame.ops ++ e.ready.map .processReadyKernel ++ e.code)
      ((e.frames ++ ⟨f.ready ++ e.ready, e.code ++ rest⟩ :: stack).flatMap Frame.ops) := by
  refine ⟨f.ready.map .processReadyKernel ++ rest ++ stack.flatMap Frame.ops, ?_, ?_⟩
  · rw [← Multiset.coe_eq_coe]
    simp only [List.flatMap_cons, Frame.ops, hf, ← Multiset.coe_add, ← Multiset.singleton_add,
      ← Multiset.cons_coe, Multiset.coe_nil]
    abel
  · rw [← Multiset.coe_eq_coe]
    simp only [List.flatMap_append, List.flatMap_cons, Frame.ops, List.map_append,
      ← Multiset.coe_add]
    abel

/-- A step of one thread, in the agenda of all. -/
theorem running_set {s : St V E} {t : Nat} {x y : List Frame} {old new : List Op}
    (q : List Nat) (sh : Shared V E) (ht : s.threads[t]? = some x)
    (hr : Replaced (x.flatMap Frame.ops) old new (y.flatMap Frame.ops)) :
    ∃ R, s.running = ↑old + R ∧
      (⟨sh, s.queue ++ q, s.threads.set t y⟩ : St V E).running =
        ↑((q.flatMap fun k => (taskFrame k).ops) ++ new) + R := by
  obtain ⟨R, h1, h2⟩ := Replaced.flatMap_set (f := fun st => st.flatMap Frame.ops) ht hr
  refine ⟨↑(s.queue.flatMap fun k => (taskFrame k).ops) + ↑R, ?_, ?_⟩
  · rw [St.running, Multiset.coe_eq_coe.mpr h1, ← Multiset.coe_add]
    abel
  · rw [St.running, Multiset.coe_eq_coe.mpr h2, List.flatMap_append, ← Multiset.coe_add,
      ← Multiset.coe_add, ← Multiset.coe_add]
    abel

/-- A new thread, in the agenda of all. -/
theorem running_spawn (s : St V E) (sh : Shared V E) (st : List Frame) :
    (⟨sh, s.queue, s.threads ++ [st]⟩ : St V E).running = ↑(st.flatMap Frame.ops) + s.running := by
  simp only [St.running, List.flatMap_append, List.flatMap_cons, List.flatMap_nil, List.append_nil,
    ← Multiset.coe_add]
  abel

theorem runFrame_does {s s' : St V E} {t : Nat} {c : Choice V E} {f : Frame} {stack : List Frame}
    (ht : s.threads[t]? = some (f :: stack)) (hs : runFrame g start s t c f stack = some s')
    (hb : Bounded s.sh s.running) :
    ∃ old new net R, Does g start s.sh old s'.sh new net ∧ s.running = ↑old + R ∧
      s'.running = ↑new + R ∧ Called g s (.run t c) s' old new := by
  unfold runFrame at hs
  split at hs
  · rename_i hcode
    split at hs
    · rename_i hready
      cases hs
      have hrep : Replaced ((f :: stack).flatMap Frame.ops) [] [] (stack.flatMap Frame.ops) := by
        refine ⟨stack.flatMap Frame.ops, ?_, .refl _⟩
        simp [Frame.ops, hcode, hready]
      obtain ⟨R, h1, h2⟩ := running_set [] s.sh ht hrep
      exact ⟨[], [], [], R, .skip, h1, by simpa using h2, fun k args h => by cases h⟩
    · cases hs
  · rename_i op rest hcode
    split at hs
    · rename_i hready
      cases hs
      have hrep : Replaced ((f :: stack).flatMap Frame.ops) [.processReadyKernels] []
          ((⟨[], rest⟩ :: stack).flatMap Frame.ops) := by
        refine ⟨rest ++ stack.flatMap Frame.ops, ?_, ?_⟩
        · simp [Frame.ops, hcode, hready]
        · simp [Frame.ops]
      obtain ⟨R, h1, h2⟩ := running_set [] s.sh ht hrep
      exact ⟨_, _, _, R, .readyNil, h1, by simpa using h2, fun k args h => by cases h⟩
    · rename_i k ks hready
      cases hs
      have hrep : Replaced ((f :: stack).flatMap Frame.ops)
          (.processReadyKernels :: .processReadyKernel k :: ks.map .processReadyKernel)
          (ks.map .enqueueWork ++ [.processReadyKernel k, .processReadyKernels])
          ((⟨[], ks.map .enqueueWork ++ .processReadyKernel k :: .processReadyKernels :: rest⟩ ::
            stack).flatMap Frame.ops) := by
        refine ⟨rest ++ stack.flatMap Frame.ops, ?_, ?_⟩
        · simp only [List.flatMap_cons, Frame.ops, hcode, hready, List.map_cons, List.cons_append]
          have hmid : ((Op.processReadyKernel k :: ks.map Op.processReadyKernel) ++
              Op.processReadyKernels :: rest).Perm (Op.processReadyKernels ::
              ((Op.processReadyKernel k :: ks.map Op.processReadyKernel) ++ rest)) :=
            List.perm_middle
          refine (hmid.append_right _).trans ?_
          simp
        · simp [Frame.ops]
      obtain ⟨R, h1, h2⟩ := running_set [] s.sh ht hrep
      exact ⟨_, _, _, R, .readyCons, h1, by simpa using h2, fun k args h => by cases h⟩
    · rw [Option.map_eq_some_iff] at hs
      obtain ⟨⟨sh', e⟩, he, hs⟩ := hs
      cases hs
      obtain ⟨R, h1, h2⟩ := running_set e.queued sh' ht (replaced_exec hcode e stack)
      obtain ⟨net, hd⟩ := exec_does he (hb.ops _ (by rw [h1]; simp))
      refine ⟨_, e.ops, net, R, hd, h1, ?_, fun k args hop => ⟨t, c, rfl, ?_, ?_⟩⟩
      · rw [h2, Effect.ops]
        simp only [List.append_assoc]
      · cases hop
        rw [St.next, ht]
        simp only [hcode, List.head?_cons]
      · cases hop
        simp only [exec, Option.map_eq_some_iff] at he
        obtain ⟨p, hp, he⟩ := he
        cases he
        exact hp

/-- Every step of the system is one of those of `Does`. -/
theorem step_does {s s' : St V E} {l : Label V E} (hs : step g start s l = some s')
    (hok : DropsDelivered s l) (hb : Bounded s.sh s.running) :
    ∃ old new net R, Does g start s.sh old s'.sh new net ∧ s.running = ↑old + R ∧
      s'.running = ↑new + R ∧ Called g s l s' old new := by
  cases l with
  | run t c =>
    simp only [step] at hs
    split at hs
    · rename_i f stack ht
      exact runFrame_does ht hs hb
    · cases hs
  | pick k =>
    simp only [step] at hs
    split at hs
    · rename_i hk
      cases hs
      refine ⟨[], [], [], s.running, .skip, by simp, ?_, fun k args h => by cases h⟩
      have hperm : (s.queue.flatMap fun k => (taskFrame k).ops).Perm
          ((taskFrame k).ops ++ (s.queue.erase k).flatMap fun k => (taskFrame k).ops) := by
        have := (List.perm_cons_erase hk).flatMap_right fun k => (taskFrame k).ops
        rwa [List.flatMap_cons] at this
      simp only [St.running, Multiset.coe_eq_coe.mpr hperm, List.flatMap_append, List.flatMap_cons,
        List.flatMap_nil, List.append_nil, ← Multiset.coe_add]
      simp only [Multiset.coe_nil]
      abel
    · cases hs
  | resolve a form ty =>
    simp only [step] at hs
    split at hs
    · rename_i hp
      rw [Option.map_eq_some_iff] at hs
      obtain ⟨⟨sh', ws⟩, hr, hs⟩ := hs
      cases hs
      have hrun := running_spawn s sh' (waiterFrames start ws ++ [⟨[], [.dropRef a]⟩])
      rw [List.flatMap_append, waiterFrames_ops] at hrun
      have ha := hb.promised a hp
      unfold resolve at hr
      split at hr
      · rename_i out hk ho
        cases hr
        exact ⟨[], _, _, s.running, .resolveConcrete hp ha hk ho, by simp,
          by simpa [Frame.ops] using hrun, fun k args h => by cases h⟩
      · rename_i out hk ho
        cases hr
        exact ⟨[], _, _, s.running, .resolveIndirect hp ha hk ho rfl, by simp,
          by simpa [Frame.ops] using hrun, fun k args h => by cases h⟩
      · cases hr
    · cases hs
  | dropResult r =>
    simp only [step] at hs
    split at hs
    · rename_i a ha
      split at hs
      · cases hs
        exact ⟨[], [], [], s.running, .dropResult ha (hok r rfl), by simp, by simp [St.running],
          fun k args h => by cases h⟩
      · cases hs
    · cases hs

end GraphExecutor

end AsyncLib
