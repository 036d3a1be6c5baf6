import AsyncLib.Lib.Holders
import AsyncLib.Runtime.TaskGraphSteps

/-!
# How long a `TaskGraphExecutor` lives

* `Owing`: every frame drops one reference of the executor, at its end.
* `counted_reach`: the reference count is the number of drops that are going to be executed.
* `lifetime`: the runs, with a count of the steps that drop the last reference, which are the calls of
  `Destroy`. `Accounted`: the `Ledger` of a state; `accounted_reach`: it holds in every run.
-/

namespace AsyncLib

open Sys Agenda Holders

namespace TaskGraphExecutor

variable {g : TaskGraph} {sync : Bool}

/-- All code of the executor uses it. -/
def Foreign (_ : Op) : Prop := False

/-- Every frame gives its reference back once, at its end, or has none. -/
def Owing (s : St) : Prop := ∀ f ∈ s.threads.flatten, Owes .dropRef Foreign f.code

theorem owes_taskFrame (k : Nat) : Owes .dropRef Foreign (taskFrame k).code :=
  .inl ⟨[.processReadyNodeIndexs], rfl, by simp⟩

theorem exec_owes {sh sh' : Shared} {inline : Bool} {op : Op} {e : Effect}
    (he : exec g sh inline op = some (sh', e)) :
    .dropRef ∉ e.code ∧ (op = .dropRef ∨ Foreign op → ∀ x ∈ e.code, Foreign x) ∧
      ∀ f ∈ e.frames, Owes .dropRef Foreign f.code := by
  cases op with
  | processReadyNodeIndexs => cases he
  | enqueueWork k =>
    cases he
    cases inline
    · simp [Foreign]
    · simpa [Foreign] using owes_taskFrame k
  | decreaseTotal k =>
    cases he
    refine ⟨fun hm => ?_, by simp [Foreign], by simp⟩
    rcases List.mem_append.mp hm with hm | hm
    · simp at hm
    · split at hm <;> simp at hm
  | await =>
    simp only [exec] at he
    split at he
    · cases he
      simp
    · cases he
  | _ =>
    cases he
    simp [Foreign]

theorem Owing.step {s s' : St} {l : Label} (h : Owing s) (hs : step g s l = some s') : Owing s' := by
  cases l with
  | run t inline =>
    simp only [TaskGraphExecutor.step] at hs
    split at hs
    · rename_i f stack ht
      have hstack := forall_stack h ht
      have htop := hstack f (by simp)
      have hrest : ∀ f' ∈ stack, Owes .dropRef Foreign f'.code := fun f' hf =>
        hstack f' (List.mem_cons_of_mem f hf)
      unfold runFrame at hs
      split at hs
      · split at hs
        · cases hs
          exact forall_set h hrest
        · cases hs
      · rename_i op rest hcode
        rw [hcode] at htop
        split at hs
        · cases hs
          refine forall_set h (List.forall_mem_cons.mpr ⟨?_, hrest⟩)
          have hnone : Owes _ _ ([] ++ rest) := htop.next (by simp) (by simp)
          exact hnone
        · rename_i k ks hready
          cases hs
          refine forall_set h (List.forall_mem_cons.mpr ⟨?_, hrest⟩)
          have hnew : Owes .dropRef Foreign ((ks.map .enqueueWork ++
              [.processReadyNodeIndex k, .processReadyNodeIndexs]) ++ rest) :=
            htop.next (by simp) (by simp [Foreign])
          simpa using hnew
        · rw [Option.map_eq_some_iff] at hs
          obtain ⟨⟨sh', e⟩, he, hs⟩ := hs
          cases hs
          obtain ⟨h1, h2, h3⟩ := exec_owes he
          refine forall_set h fun f' hf => ?_
          rcases List.mem_append.mp hf with hf | hf
          · exact h3 f' hf
          · rcases List.mem_cons.mp hf with rfl | hf
            · exact htop.next h1 h2
            · exact hrest f' hf
    · cases hs
  | pick k =>
    simp only [TaskGraphExecutor.step] at hs
    split at hs
    · cases hs
      intro f hf
      rw [List.flatten_append, List.mem_append] at hf
      rcases hf with hf | hf
      · exact h f hf
      · simp only [List.flatten_cons, List.flatten_nil, List.append_nil, List.mem_singleton] at hf
        subst hf
        exact owes_taskFrame k
    · cases hs

theorem owing_init : Owing (init g sync) := by
  intro f hf
  simp only [init, List.flatten_cons, List.flatten_nil, List.append_nil, List.mem_singleton] at hf
  subst hf
  refine .inl ⟨.processReadyNodeIndexs :: if sync then [.await] else [], rfl, ?_⟩
  cases sync <;> simp

theorem Frame.count_ops (f : Frame) : f.ops.count .dropRef = f.code.count .dropRef := by
  rw [Frame.ops, List.count_append, List.count_eq_zero.mpr (by simp), zero_add]

theorem count_running (s : St) : s.running.count .dropRef =
    s.queue.length + (s.threads.flatten.map fun f => f.code.count .dropRef).sum := by
  rw [St.running, count_pool]
  congr 1
  · have hone : ∀ k, (taskFrame k).ops.count .dropRef = 1 := fun _ => rfl
    simp [hone]
  · rw [List.map_flatten, List.sum_flatten, List.map_map]
    refine congrArg List.sum (List.map_congr_left fun stack _ => ?_)
    rw [List.count_flatMap]
    exact congrArg List.sum (List.map_congr_left fun f _ => f.count_ops)

/-- A step takes and drops references as it adds and executes drops. -/
theorem Does.drops {sh sh' : Shared} {old new : List Op} (hd : Does g sh old sh' new)
    (hle : old.count .dropRef ≤ sh.mRefCount) :
    sh'.mRefCount + old.count .dropRef = sh.mRefCount + new.count .dropRef := by
  cases hd with
  | @readyCons k ks =>
    rw [List.count_eq_zero.mpr (by simp), List.count_eq_zero.mpr (by simp)]
  | @decrease j =>
    split <;> rfl
  | @total k =>
    have hnew : .dropRef ∉ ((g.node k).mSuccessories.map Op.decreaseCount ++
        if sh.mTotalTaskCount = 1 then [Op.emplaceFinish] else []) := by
      split <;> simp
    rw [List.count_eq_zero.mpr hnew]
    rfl
  | dropRef =>
    have : 1 ≤ sh.mRefCount := hle
    show sh.mRefCount - 1 + 1 = sh.mRefCount
    omega
  | _ => rfl

/-- The reference count is the number of drops that are going to be executed. -/
theorem counted_reach {s : St} (hs : (sys g sync).Reach Any s) :
    s.running.count .dropRef = s.sh.mRefCount := by
  refine hs.invariant (I := fun s => s.running.count .dropRef = s.sh.mRefCount) ?_ ?_
  · rintro s rfl
    rw [count_running]
    cases sync <;> rfl
  · intro s l s' h _ hn
    obtain ⟨old, new, R, hd, h1, h2⟩ := step_does hn
    rw [h1, Multiset.count_add, Multiset.coe_count] at h
    have := hd.drops (by omega)
    rw [h2, Multiset.count_add, Multiset.coe_count]
    omega

theorem owing_reach {s : St} (hs : (sys g sync).Reach Any s) : Owing s := by
  refine hs.invariant (I := Owing) ?_ ?_
  · rintro s rfl
    exact owing_init
  · intro s l s' h _ hn
    exact h.step hn

/-- The reference count of a run, and the calls of `Destroy`. -/
def lifetime (g : TaskGraph) (sync : Bool) : Sys (St × Nat) Label :=
  (sys g sync).tally (Drops fun s => s.sh.mRefCount)

/-- What the reference count of a state says. -/
def Accounted (x : St × Nat) : Prop :=
  Ledger .dropRef Frame.code Foreign x.1.sh.mRefCount x.2 x.1.queue.length 0 x.1.threads

theorem Does.down {sh sh' : Shared} {old new : List Op} (hd : Does g sh old sh' new) :
    sh.mRefCount ≤ sh'.mRefCount + 1 := by
  cases hd with
  | dropRef =>
    show sh.mRefCount ≤ sh.mRefCount - 1 + 1
    omega
  | enqueue =>
    show sh.mRefCount ≤ sh.mRefCount + 1 + 1
    omega
  | _ => exact Nat.le_succ _

/-- Without references nothing is executed any more. -/
theorem step_dead {s s' : St} {l : Label} (ho : Owing s)
    (hc : s.running.count .dropRef = s.sh.mRefCount) (h0 : s.sh.mRefCount = 0)
    (hs : step g s l = some s') : s'.sh.mRefCount = 0 := by
  rw [count_running, h0] at hc
  cases l with
  | run t inline =>
    simp only [step] at hs
    split at hs
    · rename_i f stack ht
      have hf : f ∈ s.threads.flatten := forall_stack (fun f hf => hf) ht f (by simp)
      have hcount : f.code.count .dropRef = 0 := by
        have := List.le_sum_of_mem (List.mem_map_of_mem (f := fun f => f.code.count .dropRef) hf)
        omega
      have hcode := (ho f hf).unused (List.count_eq_zero.mp hcount)
      unfold runFrame at hs
      split at hs
      · split at hs
        · cases hs
          exact h0
        · cases hs
      · rename_i op rest he
        exact (hcode op (by rw [he]; simp)).elim
    · cases hs
  | pick k =>
    simp only [step] at hs
    split at hs
    · cases hs
      exact h0
    · cases hs

/-- The owner and all work of the executor are gone. -/
def St.Over (s : St) : Prop := Holders.Over .dropRef Frame.code s.queue.length 0 s.threads

instance (s : St) : Decidable s.Over := inferInstanceAs (Decidable (Holders.Over ..))

theorem accounted_reach {x : St × Nat} (hx : (lifetime g sync).Reach Any x) : Accounted x := by
  have hs : (sys g sync).Reach Any x.1 := Reach.of_tally Any hx
  refine .of_count (show ¬ Foreign .dropRef from id) (owing_reach hs) ?_ ?_
  · rw [← counted_reach hs, count_running, add_zero]
  · refine tally_last Any ?_ ?_ ?_ hx
    · rintro s rfl
      exact Nat.one_ne_zero
    · intro s l s' _ _ hn
      obtain ⟨old, new, R, hd, -, -⟩ := step_does hn
      exact hd.down
    · intro s l s' hr _ hn h0
      exact step_dead (owing_reach hr) (counted_reach hr) h0 hn

end TaskGraphExecutor

end AsyncLib
