import AsyncLib.Runtime.Runs

/-!
# Indirect values of output registers

`GetOrCreateAsyncValuePtr` gives the indirect value of an output register one reference, and
`results[i] = TakeRef(value)` takes it: the register keeps a bare pointer. Whether the value still
lives when the producer calls `ForwardTo` on it is up to the caller.

* `installed_alive`: it does if the caller drops an entry of `results` only after its delivery.
* `not_installed_alive_fork`: a run in which the caller drops the entry before.
-/

namespace AsyncLib

namespace GraphExecutor

open AsyncValue Sys AsyncGraph

variable {F V E : Type}

/-- Every indirect value that waits for the producer of an output register is alive. -/
def InstalledAlive (g : AsyncGraph F) (s : St V E) : Prop :=
  ∀ r i, r ∈ g.resultRegs → s.sh.regs r = .installed i → 0 < s.sh.heap.refs i

theorem installed_alive {nodes : List (AsyncNode F)} {order : HashOrder} {start : Nat}
    {handles : Addr → Nat} {heap : Heap V E Closure} {promised : Addr → Bool}
    {arguments : List Addr} (hu : UniqueProducer nodes)
    (hs : (build order nodes).startNode = some start)
    (hc : Caller (build order nodes) start handles heap promised arguments) {s : St V E}
    (hr : (sys (build order nodes) start heap promised arguments).Reach DropsDelivered s) :
    InstalledAlive (build order nodes) s := by
  intro r i _ hreg
  have hsafe := Safe.reach (wired_build hu hs) hc hr
  exact hsafe.counted.alive_installed hsafe.slots hreg

/-! ## A run with an early drop -/

/-- A start node whose output two kernels read. -/
def forkNodes : List (AsyncNode Unit) :=
  [⟨[], ["a"], (), "start"⟩, ⟨["a"], ["b"], (), "f"⟩, ⟨["a"], ["c"], (), "g"⟩]

/-- The graph of `forkNodes`. -/
def forkGraph : AsyncGraph Unit := build .insertion forkNodes

/-- `Execute` runs `f`, leaves `g` in the queue and returns. -/
def forkExecute : List (Label Nat Unit) := List.replicate 21 (runReturning 0 readyValue)

theorem unique_forkNodes : UniqueProducer forkNodes := ⟨by decide, by decide⟩

theorem caller_fork : Caller forkGraph 0 0 (argumentHeap [readyValue]) (promises 0 [readyValue]) [0] :=
  caller_argumentHeap forkGraph 0 [readyValue] rfl

/-- `Execute` has returned, and the indirect value at 2 waits for `g`. -/
theorem installed_alive_fork : ∃ s, after forkGraph 0 [readyValue] forkExecute = some s ∧
    s.sh.regs 2 = .installed 2 ∧ 0 < s.sh.heap.refs 2 := by
  refine ⟨_, rfl, rfl, ?_⟩
  refine installed_alive unique_forkNodes rfl caller_fork
    (reach_after_kept forkExecute (fun l hl r => ?_) rfl) 2 2 (by decide) rfl
  rw [List.eq_of_mem_replicate hl]
  exact fun h => by cases h

/-- The caller drops the entry of `c` while `g` is still in the queue. -/
theorem not_installed_alive_fork : UniqueProducer forkNodes ∧ forkGraph.startNode = some 0 ∧
    Caller forkGraph 0 0 (argumentHeap [readyValue]) (promises 0 [readyValue]) [0] ∧
    ¬ ∀ s, (callSys forkGraph 0 [readyValue]).Reach Any s → InstalledAlive forkGraph s := by
  refine ⟨unique_forkNodes, rfl, caller_fork, fun h => ?_⟩
  have := h _ (reach_after (forkExecute ++ [.dropResult 2]) rfl) 2 2 (by decide) rfl
  exact absurd this (by decide)

end GraphExecutor

end AsyncLib
