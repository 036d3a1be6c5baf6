import Mathlib.Data.List.Basic
import Mathlib.Logic.Function.Basic
import AsyncLib.Lib.System

/-!
# `SingleThreadedWorkQueue`

`async/context/single_threaded_work_queue.cpp`, used by one thread: it submits tasks, resolves values,
and calls `Await` and `Quiesce`, which execute the tasks. A task may do the same but for `Await` and
`Quiesce`. A task is named by its position in the order of submission.

* `Pc`: where the thread is in the code of the two loops. `St`: the queue, the variables of the call
  that runs, the values, and the record of the tasks that were started.
* `step`, `sys`: all runs.
* `pending`: the tasks that are going to be executed, in the order in which they are. `Inv.order`: the
  executed tasks and these are the submitted tasks, in order.
* `executed_in_order`: what follows for every run.

The mutex and the condition variable have no effect with one thread, but that a wait whose condition
does not hold never ends. Sizes of machine integers are not in the model: `valuesRemaining` is an
`int`, right for fewer than 2^31 values.
-/

namespace AsyncLib

namespace SingleThreadedWorkQueue

open Sys

/-! ## The code -/

/-- Where the thread is. -/
inductive Pc where
  /-- Between two calls. -/
  | client
  /-- The head of the loop of `Quiesce`. -/
  | quiesce
  /-- The loop over `local_work_items` of `Quiesce`, before item `next`. -/
  | quiesceItems (next : Nat)
  /-- In item `next` of `local_work_items`. -/
  | quiesceTask (next : Nat)
  /-- The loop of `Await` over `values`: `todo` are left. -/
  | awaitAndThen (todo : List Nat)
  /-- `while (has_values())`. -/
  | awaitHead
  /-- `mCv.wait`, and the code after it up to the swap. -/
  | awaitWait
  /-- `local_work_items[next_work_item_index]()`. -/
  | awaitRun
  | awaitTask
  /-- The code of `Await` after its loop. -/
  | awaitSplice
  /-- An invalid range of iterators was used. -/
  | undefined
  deriving DecidableEq, Repr

/-- The queue, the tasks that the running call has taken, and what was executed. -/
structure St where
  mWorkItems : List Nat
  localWorkItems : List Nat
  nextWorkItemIndex : Nat
  valuesRemaining : Int
  /-- The values at which a closure of `Await` is registered, once for each closure. -/
  waiting : List Nat
  resolved : Nat → Bool
  /-- The number of submitted tasks. -/
  submitted : Nat
  /-- The tasks that were started, in order. -/
  executed : List Nat
  pc : Pc

/-- `AddTask`: the next task joins the queue. -/
def St.addTask (s : St) : St :=
  { s with mWorkItems := s.mWorkItems ++ [s.submitted], submitted := s.submitted + 1 }

/-- A task that may not be queued is given back. -/
def St.addBlockingTask (s : St) (allowQueuing : Bool) : St := if allowQueuing then s.addTask else s

/-- A value is resolved: its closures run. -/
def St.resolve (s : St) (v : Nat) : St :=
  { s with
    resolved := Function.update s.resolved v true
    valuesRemaining := s.valuesRemaining - s.waiting.count v
    waiting := s.waiting.filter (· ≠ v) }

/-- `value->AndThen` of `Await`: the closure runs at once if the value is available. -/
def St.andThen (s : St) (v : Nat) : St :=
  if s.resolved v then { s with valuesRemaining := s.valuesRemaining - 1 }
  else { s with waiting := s.waiting ++ [v] }

/-- The variables of `Await` and `Quiesce` are gone. -/
def St.leave (s : St) : St := { s with localWorkItems := [], nextWorkItemIndex := 0, pc := .client }

/-- What a task does, or the next step of the running call. -/
inductive Label where
  | addTask
  | addBlockingTask (allowQueuing : Bool)
  | resolve (v : Nat)
  | quiesce
  | await (values : List Nat)
  /-- The next operation of `Await` or `Quiesce`. -/
  | run
  | returnTask
  deriving DecidableEq, Repr

/-- Code of the client or of a task runs. -/
def Pc.isUser : Pc → Bool
  | .client => true
  | .quiesceTask _ => true
  | .awaitTask => true
  | _ => false

/-- The next operation of `Await` or `Quiesce`. -/
def run (s : St) : Option St :=
  match s.pc with
  | .quiesce =>
    if s.mWorkItems = [] then some s.leave
    else some { s with
      localWorkItems := s.mWorkItems, mWorkItems := s.localWorkItems, pc := .quiesceItems 0 }
  | .quiesceItems next =>
    match s.localWorkItems[next]? with
    | some item => some { s with executed := s.executed ++ [item], pc := .quiesceTask next }
    | none => some { s with localWorkItems := [], pc := .quiesce }
  | .awaitAndThen [] => some { s with pc := .awaitHead }
  | .awaitAndThen (v :: todo) => some { s.andThen v with pc := .awaitAndThen todo }
  | .awaitHead =>
    if s.valuesRemaining ≠ 0 then
      if s.nextWorkItemIndex = s.localWorkItems.length then
        some { s with localWorkItems := [], pc := .awaitWait }
      else some { s with pc := .awaitRun }
    else some { s with pc := .awaitSplice }
  | .awaitWait =>
    if s.valuesRemaining ≠ 0 ∧ s.mWorkItems = [] then none
    else if s.valuesRemaining = 0 then some { s with pc := .awaitSplice }
    else some { s with
      localWorkItems := s.mWorkItems, mWorkItems := s.localWorkItems, nextWorkItemIndex := 0,
      pc := .awaitRun }
  | .awaitRun =>
    match s.localWorkItems[s.nextWorkItemIndex]? with
    | some item => some { s with executed := s.executed ++ [item], pc := .awaitTask }
    | none => some { s with pc := .undefined }
  | .awaitSplice =>
    if s.nextWorkItemIndex ≠ s.localWorkItems.length then
      if s.nextWorkItemIndex < s.localWorkItems.length then
        some { s with
          mWorkItems := s.localWorkItems.drop s.nextWorkItemIndex ++ s.mWorkItems }.leave
      else some { s with pc := .undefined }
    else some s.leave
  | _ => none

/-- One step; `none` if it is not enabled. -/
def step (s : St) : Label → Option St
  | .addTask => if s.pc.isUser then some s.addTask else none
  | .addBlockingTask allowQueuing =>
    if s.pc.isUser then some (s.addBlockingTask allowQueuing) else none
  | .resolve v => if s.pc.isUser ∧ s.resolved v = false then some (s.resolve v) else none
  | .quiesce => if s.pc = .client then some { s with pc := .quiesce } else none
  | .await values =>
    if s.pc = .client then
      some { s with valuesRemaining := values.length, pc := .awaitAndThen values }
    else none
  | .run => run s
  | .returnTask =>
    match s.pc with
    | .quiesceTask next => some { s with pc := .quiesceItems (next + 1) }
    | .awaitTask =>
      some { s with nextWorkItemIndex := s.nextWorkItemIndex + 1, pc := .awaitHead }
    | _ => none

/-- A fresh queue; some values are resolved already. -/
def init (resolved : Nat → Bool) : St where
  mWorkItems := []
  localWorkItems := []
  nextWorkItemIndex := 0
  valuesRemaining := 0
  waiting := []
  resolved := resolved
  submitted := 0
  executed := []
  pc := .client

/-- All runs with these resolved values. -/
def sys (resolved : Nat → Bool) : Sys St Label := Sys.ofFun (init resolved) step

/-! ## The invariant -/

/-- The tasks of `local_work_items` that were not started. -/
def St.localPending (s : St) : List Nat :=
  match s.pc with
  | .quiesceItems next => s.localWorkItems.drop next
  | .quiesceTask next => s.localWorkItems.drop (next + 1)
  | .awaitTask => s.localWorkItems.drop (s.nextWorkItemIndex + 1)
  | .awaitHead => s.localWorkItems.drop s.nextWorkItemIndex
  | .awaitRun => s.localWorkItems.drop s.nextWorkItemIndex
  | .awaitSplice => s.localWorkItems.drop s.nextWorkItemIndex
  | _ => []

/-- The submitted tasks that were not started, in the order in which they are going to be. -/
def St.pending (s : St) : List Nat := s.localPending ++ s.mWorkItems

/-- The values that `Await` has not looked at. -/
def Pc.todo : Pc → List Nat
  | .awaitAndThen todo => todo
  | _ => []

/-- The local variables at each place of the code. -/
def Locals (items : List Nat) (index : Nat) (remaining : Int) : Pc → Prop
  | .client => items = [] ∧ index = 0 ∧ remaining = 0
  | .quiesce => items = [] ∧ index = 0 ∧ remaining = 0
  | .quiesceItems next => next ≤ items.length ∧ index = 0 ∧ remaining = 0
  | .quiesceTask next => next < items.length ∧ index = 0 ∧ remaining = 0
  | .awaitAndThen _ => items = [] ∧ index = 0
  | .awaitHead => index ≤ items.length
  | .awaitWait => items = [] ∧ remaining ≠ 0
  | .awaitRun => index < items.length
  | .awaitTask => index < items.length
  | .awaitSplice => index ≤ items.length ∧ remaining = 0
  | .undefined => False

/-- The executed tasks and the pending ones are those submitted, and `valuesRemaining` is exact. -/
structure Inv (s : St) : Prop where
  /-- The executed tasks and the pending ones are the submitted ones. -/
  order : s.executed ++ s.pending = List.range s.submitted
  locals : Locals s.localWorkItems s.nextWorkItemIndex s.valuesRemaining s.pc
  /-- Each value that is awaited and not resolved is accounted for. -/
  remaining : s.valuesRemaining = s.pc.todo.length + s.waiting.length
  unresolved : ∀ v ∈ s.waiting, s.resolved v = false

theorem inv_init (resolved : Nat → Bool) : Inv (init resolved) :=
  ⟨rfl, ⟨rfl, rfl, rfl⟩, rfl, by simp [init]⟩

theorem Inv.addTask {s : St} (h : Inv s) : Inv s.addTask where
  order := by
    have hsub : s.addTask.submitted = s.submitted + 1 := rfl
    show s.executed ++ (s.localPending ++ (s.mWorkItems ++ [s.submitted])) = _
    rw [hsub, List.range_succ, ← h.order, St.pending]
    simp only [List.append_assoc]
  locals := h.locals
  remaining := h.remaining
  unresolved := h.unresolved

theorem length_filter_ne (l : List Nat) (v : Nat) :
    ((l.filter (· ≠ v)).length : Int) = l.length - l.count v := by
  induction l with
  | nil => rfl
  | cons x l ih =>
    by_cases hx : x = v
    · subst hx
      simp only [ne_eq, not_true_eq_false, decide_false, Bool.false_eq_true, not_false_eq_true,
        List.filter_cons_of_neg, List.length_cons, List.count_cons_self] at ih ⊢
      omega
    · simp only [ne_eq, hx, not_false_eq_true, decide_true, List.filter_cons_of_pos,
        List.length_cons, List.count_cons_of_ne hx] at ih ⊢
      omega

/-- Without an awaited value nothing waits. -/
theorem Inv.waiting_nil {s : St} (h : Inv s) (h0 : s.valuesRemaining = 0) : s.waiting = [] := by
  have := h.remaining
  exact List.length_eq_zero_iff.mp (by omega)

theorem Inv.resolve {s : St} (h : Inv s) (hu : s.pc.isUser = true) (v : Nat) : Inv (s.resolve v) where
  order := h.order
  locals := by
    have hl := h.locals
    have hcount : s.valuesRemaining = 0 → (s.resolve v).valuesRemaining = 0 := fun h0 => by
      simp [St.resolve, h.waiting_nil h0, h0]
    show Locals s.localWorkItems s.nextWorkItemIndex (s.resolve v).valuesRemaining s.pc
    cases hp : s.pc with
    | client =>
      rw [hp] at hl
      exact ⟨hl.1, hl.2.1, hcount hl.2.2⟩
    | quiesceTask next =>
      rw [hp] at hl
      exact ⟨hl.1, hl.2.1, hcount hl.2.2⟩
    | awaitTask =>
      rw [hp] at hl
      exact hl
    | _ =>
      rw [hp] at hu
      cases hu
  remaining := by
    have hr := h.remaining
    have hlen := length_filter_ne s.waiting v
    simp only [St.resolve]
    omega
  unresolved := by
    intro x hx
    obtain ⟨hx, hne⟩ := List.mem_filter.mp hx
    have hxv : x ≠ v := by simpa using hne
    exact (Function.update_of_ne hxv _ _).trans (h.unresolved x hx)

/-- `Await` looks at a value. -/
theorem Inv.andThen {s : St} (h : Inv s) {v : Nat} {todo : List Nat}
    (hp : s.pc = .awaitAndThen (v :: todo)) :
    Inv { s.andThen v with pc := .awaitAndThen todo } := by
  have hl := h.locals
  have hr := h.remaining
  have ho := h.order
  rw [hp] at hl hr
  simp only [Pc.todo, List.length_cons] at hr
  simp only [St.pending, St.localPending, hp] at ho
  unfold St.andThen
  split
  · refine ⟨ho, hl, ?_, h.unresolved⟩
    simp only [Pc.todo]
    omega
  · rename_i hv
    refine ⟨ho, hl, ?_, ?_⟩
    · simp only [Pc.todo, List.length_append, List.length_cons, List.length_nil]
      omega
    · intro x hx
      rcases List.mem_append.mp hx with hx | hx
      · exact h.unresolved x hx
      · rw [List.mem_singleton.mp hx]
        exact Bool.not_eq_true _ ▸ hv

theorem Inv.run {s s' : St} (h : Inv s) (hs : run s = some s') : Inv s' := by
  have hl := h.locals
  have hr := h.remaining
  have ho := h.order
  simp only [St.pending, St.localPending] at ho
  unfold SingleThreadedWorkQueue.run at hs
  cases hp : s.pc with
  | quiesce =>
    rw [hp] at hs hl hr ho
    simp only at hs ho
    split at hs
    · rename_i hempty
      cases hs
      exact ⟨by simpa [St.pending, St.localPending, St.leave] using ho, ⟨rfl, rfl, hl.2.2⟩, hr,
        h.unresolved⟩
    · cases hs
      exact ⟨by simpa [St.pending, St.localPending, hl.1] using ho, ⟨Nat.zero_le _, hl.2⟩, hr,
        h.unresolved⟩
  | quiesceItems next =>
    rw [hp] at hs hl hr ho
    simp only at hs ho
    split at hs
    · rename_i item hi
      cases hs
      obtain ⟨hlt, rfl⟩ := List.getElem?_eq_some_iff.mp hi
      refine ⟨?_, ⟨hlt, hl.2⟩, hr, h.unresolved⟩
      rw [List.drop_eq_getElem_cons hlt] at ho
      show s.executed ++ [_] ++ (s.localWorkItems.drop (next + 1) ++ s.mWorkItems) = _
      rw [List.append_assoc]
      exact ho
    · rename_i hi
      cases hs
      have hge := List.getElem?_eq_none_iff.mp hi
      refine ⟨?_, ⟨rfl, hl.2⟩, hr, h.unresolved⟩
      rw [List.drop_eq_nil_of_le hge] at ho
      simpa [St.pending, St.localPending] using ho
  | awaitAndThen todo =>
    cases todo with
    | nil =>
      rw [hp] at hs hl hr ho
      cases hs
      refine ⟨?_, by simp [Locals, hl.2], hr, h.unresolved⟩
      simpa [St.pending, St.localPending, hl.1] using ho
    | cons v todo =>
      rw [hp] at hs
      cases hs
      exact h.andThen hp
  | awaitHead =>
    rw [hp] at hs hl hr ho
    simp only at hs ho
    split at hs
    · rename_i h0
      split at hs
      · rename_i hlast
        cases hs
        refine ⟨?_, ⟨rfl, h0⟩, hr, h.unresolved⟩
        rw [hlast, List.drop_length] at ho
        simpa [St.pending, St.localPending] using ho
      · rename_i hlast
        cases hs
        exact ⟨ho, Nat.lt_of_le_of_ne hl hlast, hr, h.unresolved⟩
    · rename_i h0
      cases hs
      exact ⟨ho, ⟨hl, not_not.mp h0⟩, hr, h.unresolved⟩
  | awaitWait =>
    rw [hp] at hs hl hr ho
    simp only at hs ho
    split at hs
    · cases hs
    · rename_i hwait
      rw [if_neg hl.2] at hs
      cases hs
      have hne : s.mWorkItems ≠ [] := fun he => hwait ⟨hl.2, he⟩
      refine ⟨?_, List.length_pos_iff.mpr hne, hr, h.unresolved⟩
      simpa [St.pending, St.localPending, hl.1] using ho
  | awaitRun =>
    rw [hp] at hs hl hr ho
    have hlt : s.nextWorkItemIndex < s.localWorkItems.length := hl
    simp only [List.getElem?_eq_getElem hlt] at hs ho
    cases hs
    refine ⟨?_, hlt, hr, h.unresolved⟩
    rw [List.drop_eq_getElem_cons hlt] at ho
    show s.executed ++ [_] ++ (s.localWorkItems.drop (s.nextWorkItemIndex + 1) ++ s.mWorkItems) = _
    rw [List.append_assoc]
    exact ho
  | awaitSplice =>
    rw [hp] at hs hl hr ho
    simp only at hs ho
    split at hs
    · rename_i hne
      rw [if_pos (Nat.lt_of_le_of_ne hl.1 hne)] at hs
      cases hs
      exact ⟨by simpa [St.pending, St.localPending, St.leave] using ho, ⟨rfl, rfl, hl.2⟩, hr,
        h.unresolved⟩
    · rename_i he
      cases hs
      refine ⟨?_, ⟨rfl, rfl, hl.2⟩, hr, h.unresolved⟩
      rw [not_not.mp he, List.drop_length] at ho
      simpa [St.pending, St.localPending, St.leave] using ho
  | client => rw [hp] at hs; cases hs
  | quiesceTask next => rw [hp] at hs; cases hs
  | awaitTask => rw [hp] at hs; cases hs
  | undefined => rw [hp] at hs; cases hs

theorem Inv.step {s s' : St} {l : Label} (h : Inv s) (hs : step s l = some s') : Inv s' := by
  have hl := h.locals
  have hr := h.remaining
  have ho := h.order
  simp only [St.pending, St.localPending] at ho
  cases l with
  | addTask =>
    obtain ⟨-, hs⟩ := Option.ite_none_right_eq_some.mp hs
    cases hs
    exact h.addTask
  | addBlockingTask allowQueuing =>
    obtain ⟨-, hs⟩ := Option.ite_none_right_eq_some.mp hs
    cases hs
    cases allowQueuing
    · exact h
    · exact h.addTask
  | resolve v =>
    obtain ⟨hu, hs⟩ := Option.ite_none_right_eq_some.mp hs
    cases hs
    exact h.resolve hu.1 v
  | quiesce =>
    obtain ⟨hp, hs⟩ := Option.ite_none_right_eq_some.mp hs
    cases hs
    rw [hp] at hl hr ho
    exact ⟨ho, hl, hr, h.unresolved⟩
  | await values =>
    obtain ⟨hp, hs⟩ := Option.ite_none_right_eq_some.mp hs
    cases hs
    rw [hp] at hl ho
    have hw := h.waiting_nil hl.2.2
    exact ⟨ho, ⟨hl.1, hl.2.1⟩, by simp [Pc.todo, hw], h.unresolved⟩
  | run => exact h.run hs
  | returnTask =>
    simp only [SingleThreadedWorkQueue.step] at hs
    split at hs
    · rename_i next hp
      cases hs
      rw [hp] at hl hr ho
      exact ⟨ho, ⟨hl.1, hl.2⟩, hr, h.unresolved⟩
    · rename_i hp
      cases hs
      rw [hp] at hl hr ho
      exact ⟨ho, hl, hr, h.unresolved⟩
    · cases hs

theorem inv_reach {resolved : Nat → Bool} {s : St} (hs : (sys resolved).Reach Any s) : Inv s := by
  refine hs.invariant (I := Inv) ?_ ?_
  · rintro s rfl
    exact inv_init resolved
  · intro s l s' h _ hn
    exact h.step hn

/-! ## All runs -/

/-- The tasks are executed once each and in the order of submission; what `Await` leaves stays in
front, `Quiesce` leaves nothing, and a wait that never ends has no task to wait for. -/
theorem executed_in_order (resolved : Nat → Bool) {s : St} (hs : (sys resolved).Reach Any s) :
    s.executed.Nodup ∧ s.executed <+: List.range s.submitted ∧
    (s.pc = .client → s.executed ++ s.mWorkItems = List.range s.submitted) ∧
    (∀ s', s.pc = .quiesce → step s .run = some s' → s'.pc = .client →
      s'.executed = List.range s'.submitted) ∧
    s.pc ≠ .undefined ∧
    (s.pc = .awaitWait → step s .run = none →
      s.executed = List.range s.submitted ∧ ∃ v ∈ s.waiting, s.resolved v = false) := by
  have h := inv_reach hs
  have hprefix : s.executed <+: List.range s.submitted := ⟨s.pending, h.order⟩
  refine ⟨List.nodup_range.sublist hprefix.sublist, hprefix, ?_, ?_, ?_, ?_⟩
  · intro hp
    have ho := h.order
    simp only [St.pending, St.localPending, hp] at ho
    exact ho
  · intro s' hp hn hc
    simp only [step, run, hp] at hn
    split at hn
    · rename_i hempty
      cases hn
      have ho := h.order
      simp only [St.pending, St.localPending, hp, hempty, List.append_nil] at ho
      exact ho
    · cases hn
      cases hc
  · intro hp
    have hl := h.locals
    rw [hp] at hl
    exact hl
  · intro hp hn
    have hl := h.locals
    rw [hp] at hl
    have ho := h.order
    have hempty : s.mWorkItems = [] := by
      by_contra hne
      simp only [step, run, hp] at hn
      rw [if_neg fun hc => hne hc.2, if_neg hl.2] at hn
      cases hn
    simp only [St.pending, St.localPending, hp, hempty, List.append_nil] at ho
    refine ⟨ho, ?_⟩
    have hr := h.remaining
    have hne := hl.2
    rw [hp] at hr
    simp only [Pc.todo, List.length_nil] at hr
    obtain ⟨v, hv⟩ := List.exists_mem_of_length_pos (l := s.waiting) (by omega)
    exact ⟨v, hv, h.unresolved v hv⟩

/-- Two tasks are queued, and the first submits a third and resolves the value that `Await` waits
for; `Quiesce` executes the other two. -/
def twoTasks : List Label :=
  [.addTask, .addTask, .await [7], .run, .run, .run, .run, .run, .addTask, .resolve 7, .returnTask, .run,
    .run, .quiesce, .run, .run, .returnTask, .run, .returnTask, .run, .run]

theorem executed_in_order_two : ∃ s, runLabels step (init fun _ => false) twoTasks = some s ∧
    s.pc = .client ∧ s.executed = [0, 1, 2] ∧ s.executed.Nodup := by
  refine ⟨_, rfl, rfl, rfl, ?_⟩
  have hr := reach_runLabels (fun _ => True) (Reach.init (S := sys fun _ => false) rfl) twoTasks
    (fun _ _ => trivial) rfl
  exact (executed_in_order _ hr).1

end SingleThreadedWorkQueue

end AsyncLib
