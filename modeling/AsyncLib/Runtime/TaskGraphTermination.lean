import AsyncLib.Lib.Modify
import AsyncLib.Lib.Work
import AsyncLib.Runtime.TaskGraphLifetime
import AsyncLib.Runtime.TaskGraphRuns

/-!
# Every run of `TaskGraphExecutor` ends

* `work`: a bound of the number of steps that the threads and the queue still make. Every operation
  pays for the code that it leaves, and a counter that is positive pays for the node that it makes
  ready. `work_lt`: each step lowers it.
* `Frame.Shape`, `Stacks`: where a thread can stand. A thread that has not ended makes a step, or it
  is the calling thread in `Await` (`Stacks.stuck`).
* `called_acc`: only a node that no cycle leads to is ever called.
* `runTaskGraph_ends`: the bound, and what is true when a run stops. `RunTaskGraph` with `sync`
  returns exactly for an acyclic graph that has a node.
-/

namespace AsyncLib

open Sys Agenda

namespace TaskGraph

/-- The edges, with their multiplicity. -/
def numEdges (g : TaskGraph) : Nat :=
  ((List.range g.numNodes).map fun k => (g.node k).mSuccessories.length).sum

/-- In an acyclic graph no node waits for an endless chain of others. -/
theorem Built.acyclic_iff {g : TaskGraph} (hb : g.Built) :
    g.Acyclic ↔ ∀ k < g.numNodes, Acc g.Edge k := by
  constructor
  · intro ha k _
    exact hb.induction ha (fun j ih => ⟨j, ih⟩) k
  · intro h k hk
    obtain ⟨j, he, -⟩ := Relation.TransGen.head'_iff.mp hk
    have hacc : Acc (Relation.TransGen g.Edge) k := (h k (hb.dependency_lt he)).transGen
    have hno : ∀ i, Acc (Relation.TransGen g.Edge) i → ¬ Relation.TransGen g.Edge i i := by
      intro i hi
      induction hi with
      | intro i _ ih => exact fun hii => ih i hii hii
    exact hno k hacc hk

end TaskGraph

namespace TaskGraphExecutor

/-! ## The work that is left -/

section Cost

variable (g : TaskGraph)

/-- `ProcessReadyNodeIndex`. -/
def nodeCost (k : Nat) : Nat := (g.node k).mSuccessories.length + 4

/-- A ready node that is not the first. -/
def laterCost (k : Nat) : Nat := nodeCost g k + 6

/-- An operation and all that it leads to, up to the nodes that it makes ready. -/
def Op.cost : Op → Nat
  | .enqueueWork k => laterCost g k
  | .processReadyNodeIndex k => nodeCost g k
  | .returnNode k => (g.node k).mSuccessories.length + 3
  | .decreaseTotal k => (g.node k).mSuccessories.length + 2
  | _ => 1

/-- The work in the code of a frame. -/
def codeCost (l : List Op) : Nat := (l.map (Op.cost g)).sum

/-- A node in the queue. -/
def taskCost (k : Nat) : Nat := nodeCost g k + 5

/-- The work in a frame. -/
def Frame.cost (f : Frame) : Nat :=
  Work.readyCost (nodeCost g) (laterCost g) f.ready + codeCost g f.code + 1

/-- The work in a stack. -/
def stackCost (st : List Frame) : Nat := (st.map (Frame.cost g)).sum

/-- The nodes that are not ready yet. -/
def idleCost (sh : Shared) : Nat := Work.idleCost g.numNodes (laterCost g) sh.mNodeCountInfo

/-- A bound of the steps that the threads and the queue still make. -/
def work (s : St) : Nat :=
  (s.threads.map (stackCost g)).sum + (s.queue.map (taskCost g)).sum + idleCost g s.sh

/-- What an operation leaves. -/
def Effect.cost (e : Effect) : Nat :=
  (e.ready.map (laterCost g)).sum + codeCost g e.code + (e.frames.map (Frame.cost g)).sum +
    (e.queued.map (taskCost g)).sum

end Cost

variable {g : TaskGraph} {sync : Bool}

section Spending

variable {sh sh' : Shared}

theorem laterCost_gt (g : TaskGraph) (k : Nat) : nodeCost g k < laterCost g k := by
  unfold laterCost
  omega

@[simp] theorem codeCost_nil : codeCost g [] = 0 := rfl

@[simp] theorem codeCost_cons (op : Op) (l : List Op) :
    codeCost g (op :: l) = op.cost g + codeCost g l := rfl

@[simp] theorem codeCost_append (l l' : List Op) :
    codeCost g (l ++ l') = codeCost g l + codeCost g l' := by
  simp [codeCost]

theorem codeCost_enqueueWork (ks : List Nat) :
    codeCost g (ks.map .enqueueWork) = (ks.map (laterCost g)).sum := by
  rw [codeCost, List.map_map]
  rfl

theorem codeCost_decreaseCount (ks : List Nat) : codeCost g (ks.map .decreaseCount) = ks.length := by
  induction ks with
  | nil => rfl
  | cons k ks ih =>
    simp only [List.map_cons, codeCost_cons, ih, List.length_cons, Op.cost]
    omega

/-- A node that becomes ready is not idle any more. -/
theorem idleCost_decrease (sh : Shared) {j : Nat} (hj : j < g.numNodes) :
    idleCost g { sh with
      mNodeCountInfo := Function.update sh.mNodeCountInfo j (sh.mNodeCountInfo j - 1) } +
      ((if sh.mNodeCountInfo j = 1 then [j] else []).map (laterCost g)).sum ≤ idleCost g sh :=
  Work.idleCost_decrease _ _ hj

/-- An operation pays for what it leaves. -/
theorem exec_spends {inline : Bool} {op : Op} {e : Effect}
    (he : exec g sh inline op = some (sh', e))
    (hj : ∀ j, op = .decreaseCount j → j < g.numNodes ∧ g.mNodeIndexInfo j = j) :
    e.cost g + idleCost g sh' < op.cost g + idleCost g sh := by
  cases op with
  | processReadyNodeIndexs => cases he
  | enqueueWork k =>
    cases he
    show _ + idleCost g sh < _
    cases inline with
    | true => simp [Effect.cost, Op.cost, laterCost, taskFrame, Frame.cost, Work.readyCost]
    | false => simp [Effect.cost, Op.cost, laterCost, taskCost]
  | processReadyNodeIndex k =>
    cases he
    show _ + idleCost g sh < _
    simp [Effect.cost, Op.cost, nodeCost]
  | returnNode k =>
    cases he
    show _ + idleCost g sh < _
    simp [Effect.cost, Op.cost]
  | decreaseTotal k =>
    cases he
    show _ + idleCost g sh < _
    have hlast : codeCost g (if sh.mTotalTaskCount = 1 then [.emplaceFinish] else []) ≤ 1 := by
      split
      · exact Nat.le_refl 1
      · exact Nat.zero_le 1
    simp only [Effect.cost, Op.cost, codeCost_append, codeCost_decreaseCount, List.map_nil,
      List.sum_nil]
    omega
  | decreaseCount j =>
    cases he
    obtain ⟨hlt, hidx⟩ := hj j rfl
    have hidle := idleCost_decrease sh hlt
    simp only [Effect.cost, Op.cost, hidx, codeCost_nil, List.map_nil, List.sum_nil]
    omega
  | emplaceFinish =>
    cases he
    show _ + idleCost g sh < _
    simp [Effect.cost, Op.cost]
  | await =>
    obtain ⟨-, he⟩ := Option.ite_none_right_eq_some.mp he
    cases he
    simp [Effect.cost, Op.cost]
  | dropRef =>
    cases he
    show _ + idleCost g sh < _
    simp [Effect.cost, Op.cost]

end Spending

/-! ## Steps -/

/-- The steps of the system. -/
inductive Moves (g : TaskGraph) (s : St) : Label → St → Prop
  /-- A frame ends. -/
  | pop {t : Nat} {inline : Bool} {stack : List Frame} (ht : s.threads[t]? = some (⟨[], []⟩ :: stack)) :
    Moves g s (.run t inline) { s with threads := s.threads.set t stack }
  /-- The loop ends. -/
  | ends {t : Nat} {inline : Bool} {rest : List Op} {stack : List Frame}
    (ht : s.threads[t]? = some (⟨[], .processReadyNodeIndexs :: rest⟩ :: stack)) :
    Moves g s (.run t inline) { s with threads := s.threads.set t (⟨[], rest⟩ :: stack) }
  /-- A round of the loop. -/
  | round {t : Nat} {inline : Bool} {k : Nat} {ks : List Nat} {rest : List Op} {stack : List Frame}
    (ht : s.threads[t]? = some (⟨k :: ks, .processReadyNodeIndexs :: rest⟩ :: stack)) :
    Moves g s (.run t inline)
      { s with
        threads := s.threads.set t (⟨[], ks.map .enqueueWork ++
          .processReadyNodeIndex k :: .processReadyNodeIndexs :: rest⟩ :: stack) }
  | exec {t : Nat} {inline : Bool} {ready : List Nat} {op : Op} {rest : List Op} {stack : List Frame}
    {sh' : Shared} {e : Effect} (ht : s.threads[t]? = some (⟨ready, op :: rest⟩ :: stack))
    (he : exec g s.sh inline op = some (sh', e)) :
    Moves g s (.run t inline)
      { sh := sh'
        queue := s.queue ++ e.queued
        threads := s.threads.set t (e.frames ++ ⟨ready ++ e.ready, e.code ++ rest⟩ :: stack) }
  | pick {k : Nat} (hk : k ∈ s.queue) :
    Moves g s (.pick k)
      { s with queue := s.queue.erase k, threads := s.threads ++ [[taskFrame k]] }

theorem step_moves {s s' : St} {l : Label} (hs : step g s l = some s') : Moves g s l s' := by
  cases l with
  | run t inline =>
    simp only [step] at hs
    split at hs
    · rename_i f stack ht
      obtain ⟨ready, code⟩ := f
      unfold runFrame at hs
      split at hs
      · rename_i hcode
        obtain rfl : code = [] := hcode
        obtain ⟨hready, hs⟩ := Option.ite_none_right_eq_some.mp hs
        obtain rfl : ready = [] := hready
        cases hs
        exact .pop ht
      · rename_i op rest hcode
        obtain rfl : code = op :: rest := hcode
        split at hs
        · rename_i hready
          obtain rfl : ready = [] := hready
          cases hs
          exact .ends ht
        · rename_i k ks hready
          obtain rfl : ready = k :: ks := hready
          cases hs
          exact .round ht
        · obtain ⟨⟨sh', e⟩, he, hs⟩ := Option.map_eq_some_iff.mp hs
          cases hs
          exact .exec ht he
    · cases hs
  | pick k =>
    obtain ⟨hk, hs⟩ := Option.ite_none_right_eq_some.mp hs
    cases hs
    exact .pick hk

/-- The next operation of a thread is on the agenda. -/
theorem mem_running {s : St} {t : Nat} {ready : List Nat} {op : Op} {rest : List Op}
    {stack : List Frame} (ht : s.threads[t]? = some (⟨ready, op :: rest⟩ :: stack)) :
    op ∈ s.running := by
  refine Multiset.mem_add.mpr (.inr (Multiset.mem_coe.mpr ?_))
  exact List.mem_flatMap.mpr ⟨_, List.mem_of_getElem? ht, by simp [Frame.ops]⟩

/-- **Each step lowers the work that is left.** -/
theorem work_lt (hb : g.Built) {s s' : St} {l : Label} (hacc : Accounts g s.sh s.running)
    (hs : step g s l = some s') : work g s' < work g s := by
  cases step_moves hs with
  | @pop t inline stack ht =>
    have h := sum_set (w := stackCost g) (y := stack) ht
    simp only [stackCost, List.map_cons, List.sum_cons, Frame.cost, Work.readyCost, codeCost_nil] at h
    simp only [work]
    omega
  | @ends t inline rest stack ht =>
    have h := sum_set (w := stackCost g) (y := ⟨[], rest⟩ :: stack) ht
    simp only [stackCost, List.map_cons, List.sum_cons, Frame.cost, codeCost_cons, Op.cost] at h
    simp only [work]
    omega
  | @round t inline k ks rest stack ht =>
    have h := sum_set (w := stackCost g) (y := ⟨[], ks.map .enqueueWork ++
      .processReadyNodeIndex k :: .processReadyNodeIndexs :: rest⟩ :: stack) ht
    simp only [stackCost, List.map_cons, List.sum_cons, Frame.cost, Work.readyCost, codeCost_cons,
      codeCost_append, codeCost_enqueueWork, Op.cost] at h
    simp only [work]
    omega
  | @exec t inline ready op rest stack sh' e ht he =>
    have hspend := exec_spends he fun j hj => by
      have hlt := (hacc.decreasing hb (hj ▸ mem_running ht)).1
      exact ⟨hlt, hb.index hlt⟩
    have h := sum_set (w := stackCost g)
      (y := e.frames ++ ⟨ready ++ e.ready, e.code ++ rest⟩ :: stack) ht
    have hready := Work.readyCost_append (laterCost_gt g) ready e.ready
    simp only [stackCost, List.map_append, List.sum_append, List.map_cons, List.sum_cons, Frame.cost,
      codeCost_cons, codeCost_append] at h
    simp only [work, List.map_append, List.sum_append]
    simp only [Effect.cost] at hspend
    omega
  | @pick k hk =>
    have hsum := ((List.perm_cons_erase hk).map (taskCost g)).sum_eq
    simp only [List.map_cons, List.sum_cons] at hsum
    simp only [work, stackCost, List.map_append, List.sum_append, List.map_cons, List.map_nil,
      List.sum_cons, List.sum_nil, taskFrame, Frame.cost, Work.readyCost, codeCost_cons, codeCost_nil,
      Op.cost]
    simp only [taskCost] at hsum ⊢
    omega

/-! ## Where a thread can stand -/

/-- A call of `ProcessReadyNodeIndexs` that is followed by `after`: the loop with the code of its
round, or a rest of `after`, with an empty vector. -/
def Frame.Shape (after : List Op) (f : Frame) : Prop :=
  (∃ pre, f.code = pre ++ .processReadyNodeIndexs :: after ∧ ∀ op ∈ pre, op.executes = true) ∨
    f.ready = [] ∧ f.code <:+ after

/-- What follows the loop of the calling thread. -/
def mainRest (sync : Bool) : List Op := (if sync then [.await] else []) ++ [.dropRef]

/-- The frames of the thread `t`: calls of the tasks, and at the bottom of the first thread the call
of `Execute`. -/
def StackShape (sync : Bool) (t : Nat) (st : List Frame) : Prop :=
  ∃ fs main, st = fs ++ main ∧ (∀ f ∈ fs, f.Shape [.dropRef]) ∧
    (main = [] ∨ t = 0 ∧ ∃ f, main = [f] ∧ f.Shape (mainRest sync))

/-- All stacks have that shape. -/
def Stacks (sync : Bool) (s : St) : Prop := Each (StackShape sync) s.threads

section Shape

variable {after : List Op}

theorem shape_taskFrame (k : Nat) : (taskFrame k).Shape [.dropRef] :=
  .inl ⟨[], rfl, by simp⟩

theorem shape_mainFrame (g : TaskGraph) (sync : Bool) :
    (mainFrame g sync).Shape (mainRest sync) := .inl ⟨[], by simp [mainFrame, mainRest], by simp⟩

/-- What a node's operations leave to the frame executes nodes again. -/
theorem exec_executes {sh sh' : Shared} {inline : Bool} {op : Op} {e : Effect}
    (he : exec g sh inline op = some (sh', e)) :
    (∀ x ∈ e.code, x.executes = true) ∧ (∀ f ∈ e.frames, f.Shape [.dropRef]) ∧
      (op.executes = false → e.code = [] ∧ e.ready = []) := by
  cases op with
  | processReadyNodeIndexs => cases he
  | enqueueWork k =>
    cases he
    cases inline with
    | true => exact ⟨by simp, by simpa using shape_taskFrame k, by simp⟩
    | false => exact ⟨by simp, by simp, by simp⟩
  | decreaseTotal k =>
    cases he
    refine ⟨fun x hx => ?_, by simp, fun h => by cases h⟩
    rcases List.mem_append.mp hx with hx | hx
    · obtain ⟨j, -, rfl⟩ := List.mem_map.mp hx
      rfl
    · split at hx
      · cases List.mem_singleton.mp hx
        rfl
      · cases hx
  | await =>
    obtain ⟨-, he⟩ := Option.ite_none_right_eq_some.mp he
    cases he
    simp
  | _ =>
    cases he
    simp [Op.executes]

/-- The next operation of a frame is replaced. -/
theorem Frame.Shape.exec {sh sh' : Shared} {inline : Bool} {ready : List Nat} {op : Op}
    {rest : List Op} {e : Effect} (h : Frame.Shape after ⟨ready, op :: rest⟩)
    (hafter : ∀ x ∈ after, x.executes = false) (he : exec g sh inline op = some (sh', e)) :
    Frame.Shape after ⟨ready ++ e.ready, e.code ++ rest⟩ := by
  obtain ⟨hcode, -, hnone⟩ := exec_executes he
  rcases h with ⟨pre, hpre, hexec⟩ | ⟨hready, hsuf⟩
  · obtain ⟨rfl, rfl⟩ | ⟨pre, rfl, rfl⟩ : (op = .processReadyNodeIndexs ∧ pre = []) ∨
        ∃ pre', pre = op :: pre' ∧ rest = pre' ++ .processReadyNodeIndexs :: after := by
      cases pre with
      | nil => exact .inl ⟨(List.cons.inj hpre).1, rfl⟩
      | cons x pre =>
        obtain ⟨rfl, hrest⟩ := List.cons.inj hpre
        exact .inr ⟨pre, rfl, hrest⟩
    · cases he
    · refine .inl ⟨e.code ++ pre, by simp, fun x hx => ?_⟩
      rcases List.mem_append.mp hx with hx | hx
      · exact hcode x hx
      · exact hexec x (List.mem_cons_of_mem _ hx)
  · obtain ⟨h1, h2⟩ := hnone (hafter op (hsuf.mem List.mem_cons_self))
    obtain rfl : ready = [] := hready
    refine .inr ⟨by simp [h2], ?_⟩
    rw [h1]
    exact (List.suffix_cons op rest).trans hsuf

/-- A round of the loop. -/
theorem Frame.Shape.round {k : Nat} {ks : List Nat} {rest : List Op}
    (h : Frame.Shape after ⟨k :: ks, .processReadyNodeIndexs :: rest⟩) :
    Frame.Shape after ⟨[], ks.map .enqueueWork ++
      .processReadyNodeIndex k :: .processReadyNodeIndexs :: rest⟩ := by
  rcases h with ⟨pre, hpre, hexec⟩ | ⟨hready, -⟩
  · cases pre with
    | nil =>
      obtain ⟨-, rfl⟩ := List.cons.inj hpre
      refine .inl ⟨ks.map .enqueueWork ++ [.processReadyNodeIndex k], by simp, fun x hx => ?_⟩
      rcases List.mem_append.mp hx with hx | hx
      · obtain ⟨j, -, rfl⟩ := List.mem_map.mp hx
        rfl
      · cases List.mem_singleton.mp hx
        rfl
    | cons x pre =>
      obtain ⟨rfl, -⟩ := List.cons.inj hpre
      cases hexec _ List.mem_cons_self
  · cases hready

/-- The loop ends. -/
theorem Frame.Shape.ends {rest : List Op} (hafter : .processReadyNodeIndexs ∉ after)
    (h : Frame.Shape after ⟨[], .processReadyNodeIndexs :: rest⟩) : Frame.Shape after ⟨[], rest⟩ := by
  rcases h with ⟨pre, hpre, hexec⟩ | ⟨-, hsuf⟩
  · cases pre with
    | nil =>
      obtain ⟨-, rfl⟩ := List.cons.inj hpre
      exact .inr ⟨rfl, List.suffix_refl _⟩
    | cons x pre =>
      obtain ⟨rfl, -⟩ := List.cons.inj hpre
      cases hexec _ List.mem_cons_self
  · exact absurd (hsuf.mem List.mem_cons_self) hafter

end Shape

section Stack

variable {t : Nat} {f f' : Frame} {stack es : List Frame}

theorem mem_mainRest {x : Op} (h : x ∈ mainRest sync) : x = .await ∨ x = .dropRef := by
  cases sync with
  | false => exact .inr (by simpa [mainRest] using h)
  | true => simpa [mainRest] using h

theorem StackShape.pop (h : StackShape sync t (f :: stack)) : StackShape sync t stack := by
  obtain ⟨fs, main, hst, hfs, hmain⟩ := h
  cases fs with
  | nil =>
    rcases hmain with rfl | ⟨rfl, f, rfl, -⟩
    · cases hst
    · cases hst
      exact ⟨[], [], rfl, by simp, .inl rfl⟩
  | cons x fs =>
    cases hst
    exact ⟨fs, main, rfl, fun y hy => hfs y (List.mem_cons_of_mem _ hy), hmain⟩

/-- The top frame of a stack is replaced, and calls of tasks come above it. -/
theorem StackShape.top (es : List Frame) (h : StackShape sync t (f :: stack)) (hes : ∀ x ∈ es, x.Shape [.dropRef])
    (hf : ∀ after, (∀ x ∈ after, x = .await ∨ x = .dropRef) → f.Shape after → f'.Shape after) :
    StackShape sync t (es ++ f' :: stack) := by
  obtain ⟨fs, main, hst, hfs, hmain⟩ := h
  cases fs with
  | nil =>
    rcases hmain with rfl | ⟨rfl, x, rfl, hx⟩
    · cases hst
    · cases hst
      exact ⟨es, [f'], rfl, hes, .inr ⟨rfl, f', rfl, hf _ (fun _ => mem_mainRest) hx⟩⟩
  | cons x fs =>
    cases hst
    refine ⟨es ++ f' :: fs, main, by simp, fun y hy => ?_, hmain⟩
    rcases List.mem_append.mp hy with hy | hy
    · exact hes y hy
    · rcases List.mem_cons.mp hy with rfl | hy
      · exact hf _ (by simp) (hfs _ List.mem_cons_self)
      · exact hfs y (List.mem_cons_of_mem _ hy)

theorem Stacks.step {s s' : St} {l : Label} (h : Stacks sync s) (hs : step g s l = some s') :
    Stacks sync s' := by
  have hrest : ∀ {after : List Op}, (∀ x ∈ after, x = .await ∨ x = .dropRef) →
      ∀ x ∈ after, x.executes = false := by
    intro after ha x hx
    rcases ha x hx with rfl | rfl <;> rfl
  cases step_moves hs with
  | @pop t inline stack ht => exact h.set fun _ => (h t _ ht).pop
  | @ends t inline rest stack ht =>
    refine h.set fun _ => (h t _ ht).top [] (by simp) fun after ha hf => hf.ends fun hm => ?_
    rcases ha _ hm with hx | hx <;> cases hx
  | @round t inline k ks rest stack ht =>
    exact h.set fun _ => (h t _ ht).top [] (by simp) fun after ha hf => hf.round
  | @exec t inline ready op rest stack sh' e ht he =>
    exact h.set fun _ => (h t _ ht).top _ (exec_executes he).2.1 fun after ha hf =>
      hf.exec (hrest ha) he
  | @pick k hk =>
    refine h.append fun i x hx => ?_
    cases i with
    | zero =>
      cases hx
      exact ⟨[taskFrame k], [], rfl, by simpa using shape_taskFrame k, .inl rfl⟩
    | succ i => simp at hx

theorem stacks_reach {s : St} (hs : (sys g sync).Reach Any s) : Stacks sync s := by
  refine hs.invariant (I := Stacks sync) ?_ fun s l s' h _ hn => h.step hn
  rintro s rfl t x hx
  cases t with
  | zero =>
    cases hx
    exact ⟨[], _, rfl, by simp, .inr ⟨rfl, _, rfl, shape_mainFrame g sync⟩⟩
  | succ t => simp [init] at hx

end Stack

/-! ## A thread that cannot make a step -/

section Stuck

variable {s : St}

/-- The calling thread waits in `Await`. -/
def awaitStack : List Frame := [⟨[], [.await, .dropRef]⟩]

/-- Only `Await` has to wait. -/
theorem exec_enabled (sh : Shared) (inline : Bool) {op : Op} (hop : op ≠ .processReadyNodeIndexs)
    (ha : op = .await → sh.mFinishChain ≠ 0) : ∃ p, exec g sh inline op = some p := by
  cases op with
  | processReadyNodeIndexs => exact absurd rfl hop
  | await => exact ⟨_, if_pos (ha rfl)⟩
  | _ => exact ⟨_, rfl⟩

/-- The frame whose next operation is not `Await` makes a step. -/
theorem runFrame_enabled (t : Nat) {after : List Op} {f : Frame} (stack : List Frame)
    (hf : f.Shape after) (ha : ∀ rest, f.code = .await :: rest → s.sh.mFinishChain ≠ 0) :
    ∃ s', runFrame g s t false f stack = some s' := by
  obtain ⟨ready, code⟩ := f
  cases code with
  | nil =>
    have hready : ready = [] := by
      rcases hf with ⟨pre, hpre, -⟩ | h
      · simp at hpre
      · exact h.1
    exact ⟨_, if_pos hready⟩
  | cons op rest =>
    by_cases hop : op = .processReadyNodeIndexs
    · subst hop
      cases ready with
      | nil => exact ⟨_, rfl⟩
      | cons k ks => exact ⟨_, rfl⟩
    · obtain ⟨p, hp⟩ := exec_enabled (g := g) s.sh false hop fun h => ha rest (by rw [h])
      simp only [runFrame]
      split
      · exact absurd rfl hop
      · exact absurd rfl hop
      · exact ⟨_, by rw [hp, Option.map_some]⟩

/-- **A thread that cannot make a step has ended, or it is the calling thread in `Await`.** -/
theorem Stacks.stuck (h : Stacks sync s) {t : Nat} {st : List Frame} (ht : s.threads[t]? = some st)
    (hstop : TaskGraphExecutor.step g s (.run t false) = none) :
    st = [] ∨ t = 0 ∧ sync = true ∧ st = awaitStack ∧ s.sh.mFinishChain = 0 := by
  cases st with
  | nil => exact .inl rfl
  | cons f stack =>
    have hnone : ∀ {after : List Op}, f.Shape after →
        ∃ rest, f.code = .await :: rest ∧ s.sh.mFinishChain = 0 := by
      intro after hf
      by_contra hno
      obtain ⟨s', hs'⟩ := runFrame_enabled (g := g) (s := s) t stack hf fun rest hr h0 =>
        hno ⟨rest, hr, h0⟩
      simp only [TaskGraphExecutor.step, ht, hs'] at hstop
      cases hstop
    -- `Await` is the code of the frame at the bottom of the first stack only
    have hawait : ∀ {after rest : List Op}, f.Shape after → f.code = .await :: rest →
        f.ready = [] ∧ .await :: rest <:+ after := by
      intro after rest hf hr
      rcases hf with ⟨pre, hpre, hexec⟩ | ⟨hready, hsuf⟩
      · rw [hr] at hpre
        cases pre with
        | nil => cases hpre
        | cons x pre =>
          cases hpre
          cases hexec _ List.mem_cons_self
      · exact ⟨hready, hr ▸ hsuf⟩
    obtain ⟨fs, main, hst, hfs, hmain⟩ := h t _ ht
    cases fs with
    | cons x fs =>
      cases hst
      have hf := hfs _ List.mem_cons_self
      obtain ⟨rest, hr, -⟩ := hnone hf
      have := (hawait hf hr).2.mem List.mem_cons_self
      simp at this
    | nil =>
      rcases hmain with rfl | ⟨rfl, x, rfl, hf⟩
      · cases hst
      · cases hst
        obtain ⟨rest, hr, h0⟩ := hnone hf
        obtain ⟨hready, hsuf⟩ := hawait hf hr
        cases sync with
        | false =>
          have := hsuf.mem List.mem_cons_self
          simp [mainRest] at this
        | true =>
          have hcode : f.code = [.await, .dropRef] := by
            rw [hr]
            rcases List.suffix_cons_iff.mp hsuf with h | h
            · exact h
            · have := h.mem List.mem_cons_self
              simp at this
          refine .inr ⟨rfl, rfl, ?_, h0⟩
          obtain ⟨ready, code⟩ := f
          obtain rfl : ready = [] := hready
          obtain rfl : code = [.await, .dropRef] := hcode
          rfl

end Stuck

/-! ## The nodes that are called -/

/-- A call of a node comes after its dependencies have finished. -/
theorem Accounts.ready (hb : g.Built) {sh : Shared} {A : Multiset Op} (h : Accounts g sh A) {i k : Nat}
    (hk : .processReadyNodeIndex k ∈ A) (hi : g.Edge i k) : i ∈ sh.called := by
  have hpos := Multiset.count_pos.mpr hk
  have hcalls := h.calls k
  split at hcalls
  · rename_i hc
    exact h.mem_called (h.mem_returned (h.mem_finished hb hc.2 hi))
  · omega

/-- Only a node that waits for no endless chain of others is called. -/
theorem called_acc (hb : g.Built) {s : St} (hs : (sys g sync).Reach Any s) :
    ∀ k ∈ s.sh.called, Acc g.Edge k := by
  refine hs.invariant_of (I := fun s => ∀ k ∈ s.sh.called, Acc g.Edge k)
    (J := fun s => Accounts g s.sh s.running) (fun s h => accounts_reach hb h) ?_ ?_
  · rintro s rfl k hk
    cases hk
  · intro s l s' hacc h _ hn
    obtain ⟨old, new, R, hd, h1, -⟩ := step_does hn
    generalize s'.sh = sh' at hd ⊢
    cases hd with
    | @call k =>
      intro i hi
      rcases List.mem_cons.mp hi with rfl | hi
      · have hmem : .processReadyNodeIndex i ∈ s.running := by
          rw [h1]
          simp
        exact ⟨i, fun j hj => h j (hacc.ready hb hmem hj)⟩
      · exact h i hi
    | _ => exact h

/-- With no node to execute, every node that waits for no endless chain has finished. -/
theorem Accounts.acc_finished (hb : g.Built) {sh : Shared} {A : Multiset Op} (h : Accounts g sh A)
    (hA : ∀ op ∈ A, op.executes = false) {k : Nat} (hacc : Acc g.Edge k) (hk : k < g.numNodes) :
    k ∈ sh.finished := by
  induction hacc with
  | intro j _ ih =>
    have hcount := h.counters j
    have hpending : A.count (.decreaseCount j) = 0 :=
      Multiset.count_eq_zero.mpr fun hm => by cases hA _ hm
    have hrel := hb.released_eq h.finished_nodup fun i hi => ih i hi (hb.dependency_lt hi)
    have hidle := h.idle hA j
    rw [if_pos ⟨hk, by omega⟩] at hidle
    exact List.count_pos_iff.mp (by omega)

/-! ## A run that stops -/

section Stop

variable {s : St}

/-- No step is left. -/
def St.Stops (g : TaskGraph) (s : St) : Prop := ∀ l, step g s l = none

/-- The queue is empty and the threads have ended. -/
structure St.Ended (s : St) : Prop where
  queue : s.queue = []
  threads : ∀ st ∈ s.threads, st = []

/-- All that is left is the calling thread, in `Await`. -/
structure St.Waits (s : St) : Prop where
  queue : s.queue = []
  main : s.threads[0]? = some awaitStack
  workers : ∀ t st, s.threads[t + 1]? = some st → st = []

theorem St.Ended.stops (h : s.Ended) : s.Stops g := by
  intro l
  cases l with
  | run t inline =>
    cases ht : s.threads[t]? with
    | none => simp only [step, ht]
    | some st =>
      rw [h.threads st (List.mem_of_getElem? ht)] at ht
      simp only [step, ht]
  | pick k => exact if_neg (by rw [h.queue]; exact List.not_mem_nil)

theorem St.Stops.queue (h : s.Stops g) : s.queue = [] := by
  cases hq : s.queue with
  | nil => rfl
  | cons k ks =>
    have hpick := h (.pick k)
    simp [step, hq] at hpick

/-- A run that stops has ended, or the calling thread waits for ever. -/
theorem St.Stops.cases (h : s.Stops g) (hs : (sys g sync).Reach Any s) :
    s.Ended ∨ sync = true ∧ s.Waits ∧ s.sh.mFinishChain = 0 := by
  have hstuck : ∀ {t : Nat} {st : List Frame}, s.threads[t]? = some st →
      st = [] ∨ t = 0 ∧ sync = true ∧ st = awaitStack ∧ s.sh.mFinishChain = 0 :=
    fun {t} {_} ht => (stacks_reach hs).stuck ht (h (.run t false))
  have hworkers : ∀ t st, s.threads[t + 1]? = some st → st = [] := fun t st ht =>
    (hstuck ht).resolve_right fun hc => Nat.succ_ne_zero t hc.1
  cases h0 : s.threads[0]? with
  | none =>
    refine .inl ⟨h.queue, fun st hst => ?_⟩
    rw [List.getElem?_eq_none_iff, Nat.le_zero, List.length_eq_zero_iff] at h0
    rw [h0] at hst
    cases hst
  | some main =>
    rcases hstuck h0 with rfl | ⟨-, hsync, rfl, hf⟩
    · refine .inl ⟨h.queue, fun st hst => ?_⟩
      obtain ⟨t, ht⟩ := List.mem_iff_getElem?.mp hst
      cases t with
      | zero => exact (Option.some.inj (h0.symm.trans ht)).symm
      | succ t => exact hworkers t st ht
    · exact .inr ⟨hsync, ⟨h.queue, h0, hworkers⟩, hf⟩

/-- What is left on the agenda of a run that stops. -/
theorem St.Ended.running (h : s.Ended) : s.running = 0 := by
  have ht : s.threads.flatMap (fun st => st.flatMap Frame.ops) = [] :=
    List.flatMap_eq_nil_iff.mpr fun st hst => by rw [h.threads st hst]; rfl
  rw [St.running, pool, h.queue, ht]
  rfl

theorem St.Waits.running (h : s.Waits) : s.running = {.await, .dropRef} := by
  obtain ⟨workers, hw⟩ : ∃ workers, s.threads = awaitStack :: workers := by
    cases hts : s.threads with
    | nil =>
      have := h.main
      rw [hts] at this
      cases this
    | cons x ws =>
      have := h.main
      rw [hts] at this
      cases this
      exact ⟨ws, rfl⟩
  have ht : workers.flatMap (fun st => st.flatMap Frame.ops) = [] := by
    refine List.flatMap_eq_nil_iff.mpr fun st hst => ?_
    obtain ⟨t, hget⟩ := List.mem_iff_getElem?.mp hst
    rw [h.workers t st (by rw [hw]; exact hget)]
    rfl
  rw [St.running, pool, h.queue, hw, List.flatMap_cons, ht]
  rfl

/-- No node is left to execute. -/
theorem St.Stops.idle (h : s.Stops g) (hs : (sys g sync).Reach Any s) :
    ∀ op ∈ s.running, op.executes = false := by
  intro op hop
  rcases h.cases hs with he | ⟨-, hw, -⟩
  · rw [he.running] at hop
    cases hop
  · rw [hw.running] at hop
    rcases Multiset.mem_cons.mp hop with rfl | hop
    · rfl
    · cases Multiset.mem_singleton.mp hop
      rfl

/-- The finish chain is available exactly if every node has finished. -/
theorem St.Stops.finish_iff (hb : g.Built) (h : s.Stops g) (hs : (sys g sync).Reach Any s) :
    s.sh.mFinishChain ≠ 0 ↔ g.numNodes ≠ 0 ∧ g.Acyclic := by
  have hacc := accounts_reach hb hs
  have hidle := h.idle hs
  have hpending : s.running.count .emplaceFinish = 0 :=
    Multiset.count_eq_zero.mpr fun hm => by cases hidle _ hm
  have hsig := hacc.signals
  rw [hpending, Nat.zero_add] at hsig
  have hle := (hacc.finished_nodup.subperm hacc.finished_subset).length_le
  rw [List.length_range] at hle
  rw [hb.acyclic_iff]
  constructor
  · intro hf
    split at hsig
    · rename_i hl
      exact ⟨Nat.pos_iff_ne_zero.mp hl.2, fun k hk =>
        called_acc hb hs k (hacc.mem_called (hacc.all_returned hf hk))⟩
    · exact absurd hsig hf
  · rintro ⟨hn, ha⟩
    have hsub : List.range g.numNodes ⊆ s.sh.finished := fun k hk =>
      hacc.acc_finished hb hidle (ha k (List.mem_range.mp hk)) (List.mem_range.mp hk)
    have hge := (List.nodup_range.subperm hsub).length_le
    rw [List.length_range] at hge
    rw [if_pos ⟨Nat.le_antisymm hle hge, Nat.pos_of_ne_zero hn⟩] at hsig
    omega

end Stop

/-- `RunTaskGraph` with `sync` does not get past `Await` before the finish chain is available. -/
theorem awaited {s : St} (hs : (sys g sync).Reach Any s) (hsync : sync = true) :
    .await ∈ s.running ∨ s.sh.mFinishChain ≠ 0 := by
  refine hs.invariant (I := fun s => .await ∈ s.running ∨ s.sh.mFinishChain ≠ 0) ?_ ?_
  · rintro s rfl
    refine .inl (Multiset.mem_add.mpr (.inr ?_))
    simp [init, mainFrame, hsync, Frame.ops]
  · intro s l s' h _ hn
    obtain ⟨old, new, R, hd, h1, h2⟩ := step_does hn
    -- only `Await` itself takes `Await` from the agenda
    have hkept : .await ∉ old → .await ∈ s.running → .await ∈ s'.running := by
      intro hold hm
      rw [h1] at hm
      rw [h2]
      exact Multiset.mem_add.mpr (.inr ((Multiset.mem_add.mp hm).resolve_left hold))
    generalize s'.sh = sh' at hd ⊢
    cases hd with
    | await hf => exact .inr hf
    | emplaceFinish => exact .inr (Nat.succ_ne_zero _)
    | _ => exact h.imp (hkept (by simp)) id

/-! ## The bound -/

theorem readyCost_le (ks : List Nat) :
    Work.readyCost (nodeCost g) (laterCost g) ks ≤ (ks.map (laterCost g)).sum := by
  simpa [Work.readyCost] using Work.readyCost_append (laterCost_gt g) [] ks

/-- Every node is ready or idle at the start. -/
theorem sum_filter_add (p : Nat → Bool) (c : Nat → Nat) (ks : List Nat) :
    ((ks.filter p).map c).sum + (ks.map fun k => if p k then 0 else c k).sum = (ks.map c).sum := by
  induction ks with
  | nil => rfl
  | cons k ks ih =>
    cases hp : p k with
    | true =>
      simp only [List.filter_cons_of_pos hp, List.map_cons, List.sum_cons, hp, if_true]
      omega
    | false =>
      simp only [List.filter_cons_of_neg (Bool.not_eq_true _ ▸ hp), List.map_cons, List.sum_cons, hp,
        Bool.false_eq_true, if_false]
      omega

theorem sum_laterCost (g : TaskGraph) :
    ((List.range g.numNodes).map (laterCost g)).sum = g.numEdges + 10 * g.numNodes := by
  have hsum : ∀ ks : List Nat, (ks.map (laterCost g)).sum =
      (ks.map fun k => (g.node k).mSuccessories.length).sum + 10 * ks.length := by
    intro ks
    induction ks with
    | nil => rfl
    | cons k ks ih =>
      simp only [List.map_cons, List.sum_cons, ih, List.length_cons, laterCost, nodeCost]
      omega
  rw [hsum, List.length_range, TaskGraph.numEdges]

/-- The work at the start. -/
theorem work_init_le (sync : Bool) (hb : g.Built) :
    work g (init g sync) ≤ g.numEdges + 10 * g.numNodes + 4 := by
  have hready := readyCost_le (g := g) (startNodes g)
  have hsplit := sum_filter_add (fun k => decide (g.getNumDependencies k = 0)) (laterCost g)
    (List.range g.numNodes)
  rw [← startNodes_eq hb, sum_laterCost] at hsplit
  have hidle : idleCost g (init g sync).sh = ((List.range g.numNodes).map fun k =>
      if decide (g.getNumDependencies k = 0) then 0 else laterCost g k).sum := by
    unfold idleCost Work.idleCost
    refine Finset.sum_congr rfl fun k _ => ?_
    simp only [init, hb.count, decide_eq_true_eq]
    split
    · rw [if_neg (by omega)]
    · rw [if_pos (by omega)]
  have hcode : codeCost g (mainFrame g sync).code ≤ 3 := by
    cases sync <;> simp [mainFrame, Op.cost]
  have hwork : work g (init g sync) =
      Work.readyCost (nodeCost g) (laterCost g) (startNodes g) +
        codeCost g (mainFrame g sync).code + 1 +
        idleCost g (init g sync).sh := by
    simp [work, init, stackCost, Frame.cost, mainFrame]
  rw [hwork, hidle]
  omega

/-! ## The theorem -/

/-- **Every run of `RunTaskGraph` ends.** It has a bounded number of steps. When it stops, the nodes
that were called are those that wait for no endless chain of others. The call has returned and dropped
its reference if it does not wait, or if the graph has a node and no cycle; otherwise it waits in
`Await` for ever, and keeps its reference. -/
theorem runTaskGraph_ends (edits : List TaskGraph.Edit) (sync : Bool) :
    (∀ ls s, (sys (.build edits) sync).Path Any (init (.build edits) sync) ls s →
      ls.length ≤ (TaskGraph.build edits).numEdges + 10 * (TaskGraph.build edits).numNodes + 4) ∧
    ∀ s, (sys (.build edits) sync).Reach Any s → s.Stops (.build edits) →
      (∀ k, k ∈ s.sh.called ↔ k < (TaskGraph.build edits).numNodes ∧ Acc (TaskGraph.build edits).Edge k) ∧
      ((sync = false ∨ (TaskGraph.build edits).numNodes ≠ 0 ∧ (TaskGraph.build edits).Acyclic) →
        s.Ended ∧ s.sh.mRefCount = 0) ∧
      (¬ (sync = false ∨ (TaskGraph.build edits).numNodes ≠ 0 ∧ (TaskGraph.build edits).Acyclic) →
        s.Waits ∧ s.sh.mRefCount = 1) := by
  have hb := TaskGraph.built_build edits
  refine ⟨fun ls s hp => ?_, fun s hs hstop => ?_⟩
  · have hsum := hp.amortized (work (.build edits)) (fun _ => 1) (fun _ => 0)
      (I := (sys (.build edits) sync).Reach Any)
      (fun s l s' h hok hn => .step h hok hn)
      (fun s l s' h _ hn => work_lt hb (accounts_reach hb h) hn) (.init rfl)
    have hinit := work_init_le sync hb
    simp only [List.map_const', List.sum_replicate_nat, Nat.mul_one, Nat.mul_zero,
      Nat.add_zero] at hsum
    omega
  · have hacc := accounts_reach hb hs
    have hfin := hstop.finish_iff hb hs
    have hdrops := counted_reach hs
    refine ⟨fun k => ⟨fun hk => ⟨(hacc.called_lt hk).1, called_acc hb hs k hk⟩, fun hk => ?_⟩, ?_, ?_⟩
    · exact hacc.mem_called (hacc.mem_returned (hacc.acc_finished hb (hstop.idle hs) hk.2 hk.1))
    · intro hc
      rcases hstop.cases hs with he | ⟨hsync, -, hf⟩
      · rw [he.running] at hdrops
        exact ⟨he, hdrops.symm⟩
      · rcases hc with hc | hc
        · rw [hc] at hsync
          cases hsync
        · exact absurd hf (hfin.mpr hc)
    · intro hc
      rcases hstop.cases hs with he | ⟨-, hw, -⟩
      · obtain ⟨hsync, hno⟩ := not_or.mp hc
        have hf := (awaited hs (Bool.eq_true_of_not_eq_false hsync)).resolve_left fun hm => by
          rw [he.running] at hm
          cases hm
        exact absurd (hfin.mp hf) hno
      · rw [hw.running] at hdrops
        exact ⟨hw, hdrops.symm⟩

/-- Two nodes, of which the second waits for itself. -/
def loopEdits : List TaskGraph.Edit := [.emplace, .emplace, .addDependency 1 1]

/-- The state in which the calling thread has made `n` steps. -/
theorem reach_after {edits : List TaskGraph.Edit} {n : Nat} {s : St}
    (hr : runLabels (step (.build edits)) (init (.build edits) sync)
      (List.replicate n (.run 0 false)) = some s) : (sys (.build edits) sync).Reach Any s :=
  reach_runLabels (fun _ => True) (.init rfl) _ (fun _ _ => trivial) hr

/-- The calling thread executes `pairEdits` in 15 steps, and the bound is 26. The run of `loopEdits`
stops after 5 steps: its second node is never called, and `RunTaskGraph` does not return. -/
theorem runTaskGraph_ends_pair :
    (∃ s, runLabels (step (.build pairEdits)) (init (.build pairEdits) true)
      (List.replicate 15 (.run 0 false)) = some s ∧
      15 ≤ (TaskGraph.build pairEdits).numEdges + 10 * (TaskGraph.build pairEdits).numNodes + 4 ∧
      s.sh.mRefCount = 0 ∧ ∀ k < 2, k ∈ s.sh.called) ∧
    ∃ s, runLabels (step (.build loopEdits)) (init (.build loopEdits) true)
      (List.replicate 5 (.run 0 false)) = some s ∧ ¬ Acc (TaskGraph.build loopEdits).Edge 1 := by
  obtain ⟨s, hs, hend⟩ : ∃ s, runLabels (step (.build pairEdits)) (init (.build pairEdits) true)
      (List.replicate 15 (.run 0 false)) = some s ∧ (s.queue = [] ∧ s.threads = [[]]) :=
    ⟨_, rfl, rfl, rfl⟩
  have hended : s.Ended := ⟨hend.1, by simp [hend.2]⟩
  obtain ⟨hbound, hstop⟩ := runTaskGraph_ends pairEdits true
  obtain ⟨hcalled, hret, -⟩ := hstop s (reach_after hs) hended.stops
  have hacyclic := ((TaskGraph.built_build pairEdits).acyclic_iff).mp acyclic_pair
  refine ⟨⟨s, hs, ?_, (hret (.inr ⟨by decide, acyclic_pair⟩)).2, fun k hk =>
    (hcalled k).mpr ⟨hk, hacyclic k hk⟩⟩, ?_⟩
  · simpa using hbound _ s (path_runLabels _ (fun _ _ _ => trivial) hs)
  · obtain ⟨s, hs, hwait⟩ : ∃ s, runLabels (step (.build loopEdits)) (init (.build loopEdits) true)
        (List.replicate 5 (.run 0 false)) = some s ∧
          (s.queue = [] ∧ s.threads = [awaitStack] ∧ s.sh.mFinishChain = 0 ∧ s.sh.called = [0]) :=
      ⟨_, rfl, rfl, rfl, rfl, rfl⟩
    obtain ⟨hq, ht, hf, hc⟩ := hwait
    have hstops : s.Stops (.build loopEdits) := by
      intro l
      cases l with
      | run t inline =>
        cases t with
        | zero => simp [step, ht, awaitStack, runFrame, exec, hf]
        | succ t => simp [step, ht]
      | pick k => simp [step, hq]
    refine ⟨s, hs, fun hacc => ?_⟩
    have h1 := (((runTaskGraph_ends loopEdits true).2 s (reach_after hs) hstops).1 1).mpr
      ⟨by decide, hacc⟩
    rw [hc] at h1
    cases List.mem_singleton.mp h1

end TaskGraphExecutor

end AsyncLib
