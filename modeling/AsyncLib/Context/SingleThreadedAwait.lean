import Mathlib.Data.List.Basic
import Mathlib.Logic.Function.Basic
import AsyncLib.Lib.System

/-!
# `SingleThreadedWorkQueue::Await` among other threads

`Await` of `async/context/single_threaded_work_queue.cpp`, while other threads add tasks to the
queue and resolve the awaited values, between any two of its steps.

* `Pc`: where `Await` is. Its two lock sections are one step each, and so is `AndThen`. `Pc.left`:
  the loop was left, by its condition or by its `break`.
* `St`: the queue, the variables of `Await` and the closures; beside them the tasks that `Await`
  took out of the queue and those that it started.
* `Leftover`: what the code after the loop needs.
* `Locals`, `Awake`, `Counted`: kept by the steps of every thread.
* `await_leftover`: the range of the leftover tasks is right, unless the last value is resolved while
  `Await` waits for more tasks after a batch: the batch is cleared there, and the index is not.

`SingleThreaded` has the calls of one thread, where a value is resolved and its closures run in one
step. Here a closure of a resolved value runs in a step of its own, at any later time. Other calls of `Await`
or `Quiesce` on the queue are not in the model. `values_remaining` is an `int`: fewer than `2^31`
values are awaited. The index is a `size_t`, and below the length of a vector.
-/

namespace AsyncLib

namespace SingleThreadedAwait

open Sys

/-! ## The code -/

/-- Where `Await` is. -/
inductive Pc (V : Type) where
  /-- The loop over `values`: `todo` are left. -/
  | andThen (todo : List V)
  /-- `while (has_values())`. -/
  | head
  /-- `if (next_work_item_index == local_work_items.size())`. -/
  | body
  /-- `mCv.wait`, and the lock section after it. -/
  | wait
  /-- `local_work_items[next_work_item_index]()`. -/
  | run
  | task
  /-- The code after the loop; `broke` if the loop was left by its `break`. -/
  | left (broke : Bool)
  | returned
  /-- An invalid index or range was used. -/
  | undefined
  deriving DecidableEq, Repr

/-- The two vectors and the variables of `Await`, the values, and what was executed. -/
structure St (T V : Type) where
  mWorkItems : List T
  localWorkItems : List T
  nextWorkItemIndex : Nat
  valuesRemaining : Int
  /-- The values at which a closure is registered, once for each closure. -/
  waiting : List V
  /-- The closures that were taken from a resolved value and did not run. -/
  firing : Nat
  resolved : V → Bool
  /-- The tasks that were swapped out of the queue, in order. -/
  swapped : List T
  /-- The tasks that were started, in order. -/
  executed : List T
  pc : Pc V

/-- Another thread adds a task or resolves a value, a closure runs, or `Await` goes on. -/
inductive Label (T V : Type) where
  /-- A thread adds a task. -/
  | addTask (task : T)
  /-- A thread resolves a value. -/
  | resolve (v : V)
  /-- A closure of a resolved value runs. -/
  | fire
  /-- The next step of `Await`. -/
  | run
  /-- The task that `Await` runs returns. -/
  | returnTask
  deriving DecidableEq, Repr

variable {T V : Type}

/-- `value->AndThen`: the closure runs at once if the value is available. -/
def St.andThen (s : St T V) (v : V) : St T V :=
  if s.resolved v then { s with valuesRemaining := s.valuesRemaining - 1 }
  else { s with waiting := s.waiting ++ [v] }

/-- A value is resolved, and its closures are going to run. -/
def St.resolve [DecidableEq V] (s : St T V) (v : V) : St T V :=
  { s with
    resolved := Function.update s.resolved v true
    waiting := s.waiting.filter (· ≠ v)
    firing := s.firing + s.waiting.count v }

/-- The next step of `Await`. -/
def run (s : St T V) : Option (St T V) :=
  match s.pc with
  | .andThen [] => some { s with pc := .head }
  | .andThen (v :: todo) => some { s.andThen v with pc := .andThen todo }
  | .head =>
    if s.valuesRemaining ≠ 0 then some { s with pc := .body } else some { s with pc := .left false }
  | .body =>
    if s.nextWorkItemIndex = s.localWorkItems.length then
      some { s with localWorkItems := [], pc := .wait }
    else some { s with pc := .run }
  | .wait =>
    if s.valuesRemaining ≠ 0 ∧ s.mWorkItems = [] then none
    -- the break skips `next_work_item_index = 0`
    else if s.valuesRemaining = 0 then some { s with pc := .left true }
    else some { s with
      localWorkItems := s.mWorkItems, mWorkItems := s.localWorkItems, nextWorkItemIndex := 0,
      swapped := s.swapped ++ s.mWorkItems, pc := .run }
  | .run =>
    match s.localWorkItems[s.nextWorkItemIndex]? with
    | some item => some { s with executed := s.executed ++ [item], pc := .task }
    | none => some { s with pc := .undefined }
  | .left _ =>
    if s.nextWorkItemIndex ≠ s.localWorkItems.length then
      if s.nextWorkItemIndex < s.localWorkItems.length then
        some { s with
          mWorkItems := s.localWorkItems.drop s.nextWorkItemIndex ++ s.mWorkItems, pc := .returned }
      else some { s with pc := .undefined }
    else some { s with pc := .returned }
  | _ => none

/-- One step; `none` if it is not enabled. -/
def step [DecidableEq V] (s : St T V) : Label T V → Option (St T V)
  | .addTask task => some { s with mWorkItems := s.mWorkItems ++ [task] }
  | .resolve v => if s.resolved v then none else some (s.resolve v)
  | .fire =>
    if s.firing = 0 then none
    else some { s with valuesRemaining := s.valuesRemaining - 1, firing := s.firing - 1 }
  | .run => run s
  | .returnTask =>
    if s.pc = .task then some { s with nextWorkItemIndex := s.nextWorkItemIndex + 1, pc := .head }
    else none

/-- `Await(values)` is called on a queue that holds `items`; some values are resolved already. -/
def init (items : List T) (values : List V) (resolved : V → Bool) : St T V where
  mWorkItems := items
  localWorkItems := []
  nextWorkItemIndex := 0
  valuesRemaining := values.length
  waiting := []
  firing := 0
  resolved := resolved
  swapped := []
  executed := []
  pc := .andThen values

/-- All runs of `Await` on `values`. -/
def sys [DecidableEq V] (items : List T) (values : List V) (resolved : V → Bool) : Sys (St T V)
    (Label T V) :=
  Sys.ofFun (init items values resolved) step

/-! ## The invariant -/

/-- The range from `next_work_item_index` to the end of `local_work_items` is valid, and holds the
tasks that were swapped out and not run. -/
structure Leftover (items : List T) (index : Nat) (swapped executed : List T) : Prop where
  valid : index ≤ items.length
  exact : swapped = executed ++ items.drop index

/-- The local variables at each place of `Await`. -/
def Locals (items : List T) (index : Nat) (swapped executed : List T) : Pc V → Prop
  | .andThen _ => Leftover items index swapped executed
  | .head => Leftover items index swapped executed
  | .body => Leftover items index swapped executed
  | .wait => items = [] ∧ swapped = executed
  | .run => Leftover items index swapped executed ∧ index < items.length
  | .task => Leftover items (index + 1) swapped executed ∧ executed ≠ []
  | .left false => Leftover items index swapped executed
  | .left true => items = [] ∧ swapped = executed
  | .returned => True
  | .undefined => True

/-- The tasks that were taken are executed or still in the local vector. -/
def St.Leftover (s : St T V) : Prop :=
  SingleThreadedAwait.Leftover s.localWorkItems s.nextWorkItemIndex s.swapped s.executed

/-- The invariant. -/
def St.Locals (s : St T V) : Prop :=
  SingleThreadedAwait.Locals s.localWorkItems s.nextWorkItemIndex s.swapped s.executed s.pc

variable {s s' : St T V}

theorem locals_init (items : List T) (values : List V) (resolved : V → Bool) :
    (init items values resolved).Locals := ⟨Nat.le_refl _, rfl⟩

/-- A step of `Await`. -/
theorem locals_run (h : s.Locals) (hs : run s = some s') : s'.Locals := by
  unfold run at hs
  unfold St.Locals at h
  cases hpc : s.pc with
  | andThen todo =>
    rw [hpc] at hs h
    cases todo with
    | nil =>
      cases hs
      exact h
    | cons v todo =>
      cases hs
      unfold St.andThen
      split
      · exact h
      · exact h
  | head =>
    rw [hpc] at hs h
    simp only at hs
    split at hs
    · cases hs
      exact h
    · cases hs
      exact h
  | body =>
    rw [hpc] at hs h
    simp only at hs
    split at hs
    · rename_i hlast
      cases hs
      refine ⟨rfl, ?_⟩
      have hexact := h.exact
      rwa [hlast, List.drop_length, List.append_nil] at hexact
    · rename_i hlast
      cases hs
      exact ⟨h, Nat.lt_of_le_of_ne h.valid hlast⟩
  | wait =>
    rw [hpc] at hs h
    simp only at hs
    split at hs
    · cases hs
    · rename_i hblocked
      split at hs
      · cases hs
        exact h
      · rename_i hv
        cases hs
        have hne : s.mWorkItems ≠ [] := fun he => hblocked ⟨hv, he⟩
        exact ⟨⟨Nat.zero_le _, congrArg (· ++ s.mWorkItems) h.2⟩, List.length_pos_iff.mpr hne⟩
  | run =>
    rw [hpc] at hs h
    obtain ⟨h, hlt⟩ := h
    simp only [List.getElem?_eq_getElem hlt] at hs
    cases hs
    refine ⟨⟨hlt, ?_⟩, List.append_ne_nil_of_right_ne_nil _ (List.cons_ne_nil _ _)⟩
    have hexact := h.exact
    rw [List.drop_eq_getElem_cons hlt] at hexact
    show s.swapped = s.executed ++ [_] ++ _
    rw [List.append_assoc]
    exact hexact
  | task =>
    rw [hpc] at hs
    cases hs
  | left broke =>
    rw [hpc] at hs
    simp only at hs
    split at hs
    · split at hs
      · cases hs
        trivial
      · cases hs
        trivial
    · cases hs
      trivial
  | returned =>
    rw [hpc] at hs
    cases hs
  | undefined =>
    rw [hpc] at hs
    cases hs

theorem locals_step [DecidableEq V] {l : Label T V} (h : s.Locals) (hs : step s l = some s') :
    s'.Locals := by
  cases l with
  | addTask task =>
    cases hs
    exact h
  | resolve v =>
    simp only [step] at hs
    split at hs
    · cases hs
    · cases hs
      exact h
  | fire =>
    simp only [step] at hs
    split at hs
    · cases hs
    · cases hs
      exact h
  | run => exact locals_run h hs
  | returnTask =>
    simp only [step] at hs
    split at hs
    · rename_i hp
      cases hs
      unfold St.Locals at h
      rw [hp] at h
      exact h.1
    · cases hs

theorem locals_reach [DecidableEq V] {items : List T} {values : List V} {resolved : V → Bool}
    (hs : (sys items values resolved).Reach Any s) : s.Locals := by
  refine hs.invariant (I := St.Locals) ?_ ?_
  · intro s h0
    cases h0
    exact locals_init items values resolved
  · intro s l s' h _ hn
    exact locals_step h hn

/-! ## When the loop is left -/

/-- `Await` has run a batch of tasks to its end, and goes to wait for more. -/
def St.Waits (s : St T V) : Prop :=
  (s.pc = .body ∨ s.pc = .wait) ∧ s.executed ≠ [] ∧ s.swapped = s.executed

/-- The step is not the closure of the last value that is left, run while `Await` waits for more
tasks after a batch. -/
def NoLateResolve (s : St T V) (l : Label T V) : Prop :=
  ¬ (l = .fire ∧ s.valuesRemaining = 1 ∧ s.Waits)

instance [DecidableEq T] [DecidableEq V] (s : St T V) : Decidable s.Waits :=
  inferInstanceAs (Decidable (_ ∧ _))

instance [DecidableEq T] [DecidableEq V] (s : St T V) (l : Label T V) :
    Decidable (NoLateResolve s l) := inferInstanceAs (Decidable (¬ _))

/-- Where the loop was left, the leftover tasks are in a valid range; an invalid one is not used. -/
structure Correct (s : St T V) : Prop where
  left : ∀ broke, s.pc = .left broke → s.Leftover
  defined : s.pc ≠ .undefined

/-- What carries `Correct` along a run: while `Await` waits after a batch, a value is left. -/
structure Awake (s : St T V) : Prop where
  waits : s.Waits → s.valuesRemaining ≠ 0
  /-- The index counts tasks that were run. -/
  index : s.nextWorkItemIndex ≠ 0 → s.executed ≠ []
  correct : Correct s

theorem awake_init (items : List T) (values : List V) (resolved : V → Bool) :
    Awake (init items values resolved) where
  waits h := h.1.elim nofun nofun
  index h := absurd rfl h
  correct := ⟨nofun, nofun⟩

/-- A place of `Await` where nothing is claimed. -/
theorem Awake.other (hi : s.nextWorkItemIndex ≠ 0 → s.executed ≠ []) (hb : s.pc ≠ .body)
    (hw : s.pc ≠ .wait) (hl : ∀ broke, s.pc ≠ .left broke) (hd : s.pc ≠ .undefined) : Awake s where
  waits h := h.1.elim (absurd · hb) (absurd · hw)
  index := hi
  correct := ⟨fun broke h => absurd h (hl broke), hd⟩

theorem awake_run (h : s.Locals) (ha : Awake s) (hs : run s = some s') : Awake s' := by
  have hl := locals_run h hs
  unfold run at hs
  unfold St.Locals at h
  cases hpc : s.pc with
  | andThen todo =>
    rw [hpc] at hs
    cases todo with
    | nil =>
      cases hs
      exact .other ha.index nofun nofun nofun nofun
    | cons v todo =>
      cases hs
      refine .other ?_ nofun nofun nofun nofun
      unfold St.andThen
      split
      · exact ha.index
      · exact ha.index
  | head =>
    rw [hpc] at hs
    simp only at hs
    split at hs
    · rename_i hv
      cases hs
      exact ⟨fun _ => hv, ha.index, ⟨nofun, nofun⟩⟩
    · cases hs
      exact ⟨fun hw => hw.1.elim nofun nofun, ha.index, ⟨fun _ _ => hl, nofun⟩⟩
  | body =>
    rw [hpc] at hs h
    simp only at hs
    split at hs
    · cases hs
      -- the batch is at its end, as it was in the step before
      refine ⟨fun hw => ha.waits ⟨.inl hpc, hw.2⟩, ha.index, ⟨nofun, nofun⟩⟩
    · cases hs
      exact .other ha.index nofun nofun nofun nofun
  | wait =>
    rw [hpc] at hs h
    simp only at hs
    split at hs
    · cases hs
    · split at hs
      · rename_i h0
        cases hs
        have hexec : s.executed = [] :=
          by_contra fun hne => ha.waits ⟨.inr hpc, hne, h.2⟩ h0
        have hn : s.nextWorkItemIndex = 0 := by_contra fun hne => ha.index hne hexec
        refine ⟨fun hw => hw.1.elim nofun nofun, ha.index, ⟨fun _ _ => ?_, nofun⟩⟩
        refine ⟨hn ▸ Nat.zero_le _, ?_⟩
        show s.swapped = s.executed ++ s.localWorkItems.drop s.nextWorkItemIndex
        rw [h.1, List.drop_nil, List.append_nil, h.2]
      · cases hs
        exact .other (absurd rfl) nofun nofun nofun nofun
  | run =>
    rw [hpc] at hs h
    simp only [List.getElem?_eq_getElem h.2] at hs
    cases hs
    exact .other (fun _ => List.append_ne_nil_of_right_ne_nil _ (List.cons_ne_nil _ _)) nofun nofun
      nofun nofun
  | task =>
    rw [hpc] at hs
    cases hs
  | left broke =>
    rw [hpc] at hs
    have hleft := (ha.correct.left broke hpc).valid
    simp only at hs
    split at hs
    · rename_i hne
      rw [if_pos (Nat.lt_of_le_of_ne hleft hne)] at hs
      cases hs
      exact .other ha.index nofun nofun nofun nofun
    · cases hs
      exact .other ha.index nofun nofun nofun nofun
  | returned =>
    rw [hpc] at hs
    cases hs
  | undefined => exact absurd hpc ha.correct.defined

theorem awake_step [DecidableEq V] {l : Label T V} (h : s.Locals) (ha : Awake s)
    (hs : step s l = some s') (hok : NoLateResolve s l) : Awake s' := by
  cases l with
  | addTask task =>
    cases hs
    exact ⟨ha.waits, ha.index, ⟨ha.correct.left, ha.correct.defined⟩⟩
  | resolve v =>
    simp only [step] at hs
    split at hs
    · cases hs
    · cases hs
      exact ⟨ha.waits, ha.index, ⟨ha.correct.left, ha.correct.defined⟩⟩
  | fire =>
    simp only [step] at hs
    split at hs
    · cases hs
    · cases hs
      refine ⟨fun hw => ?_, ha.index, ⟨ha.correct.left, ha.correct.defined⟩⟩
      have hne : s.valuesRemaining ≠ 1 := fun h1 => hok ⟨rfl, h1, hw⟩
      show s.valuesRemaining - 1 ≠ 0
      omega
  | run => exact awake_run h ha hs
  | returnTask =>
    simp only [step] at hs
    split at hs
    · rename_i hp
      cases hs
      unfold St.Locals at h
      rw [hp] at h
      exact .other (fun _ => h.2) nofun nofun nofun nofun
    · cases hs

/-! ## The late resolution -/

/-- The values that `Await` has not come to. -/
def Pc.todo : Pc V → Nat
  | .andThen todo => todo.length
  | _ => 0

/-- What the variables of `Await` count. -/
structure Counted (s : St T V) : Prop where
  /-- `values_remaining` counts the closures that did not run. -/
  closures : s.valuesRemaining = s.waiting.length + s.firing + s.pc.todo
  /-- The index counts the tasks of the batch. -/
  index : s.executed ≠ [] → s.nextWorkItemIndex ≠ 0 ∨ s.pc = .run ∨ s.pc = .task

theorem counted_run (hl : s.Locals) (h : Counted s) (hs : run s = some s') : Counted s' := by
  obtain ⟨h, hi⟩ := h
  unfold run at hs
  unfold St.Locals at hl
  cases hpc : s.pc with
  | andThen todo =>
    rw [hpc] at hs h hi
    have hi' : s.executed ≠ [] → s.nextWorkItemIndex ≠ 0 := fun he =>
      (hi he).resolve_right fun hp => hp.elim nofun nofun
    cases todo with
    | nil =>
      cases hs
      exact ⟨h, fun he => .inl (hi' he)⟩
    | cons v todo =>
      cases hs
      have hlen : (Pc.andThen (v :: todo)).todo = todo.length + 1 := rfl
      rw [hlen] at h
      unfold St.andThen
      split
      · refine ⟨?_, fun he => .inl (hi' he)⟩
        show s.valuesRemaining - 1 = s.waiting.length + s.firing + (todo.length : Nat)
        omega
      · refine ⟨?_, fun he => .inl (hi' he)⟩
        show s.valuesRemaining = ((s.waiting ++ [v]).length : Nat) + s.firing + (todo.length : Nat)
        rw [List.length_append, List.length_singleton]
        omega
  | head =>
    rw [hpc] at hs h hi
    have hi' : s.executed ≠ [] → s.nextWorkItemIndex ≠ 0 := fun he =>
      (hi he).resolve_right fun hp => hp.elim nofun nofun
    simp only at hs
    split at hs
    · cases hs
      exact ⟨h, fun he => .inl (hi' he)⟩
    · cases hs
      exact ⟨h, fun he => .inl (hi' he)⟩
  | body =>
    rw [hpc] at hs h hi
    have hi' : s.executed ≠ [] → s.nextWorkItemIndex ≠ 0 := fun he =>
      (hi he).resolve_right fun hp => hp.elim nofun nofun
    simp only at hs
    split at hs
    · cases hs
      exact ⟨h, fun he => .inl (hi' he)⟩
    · cases hs
      exact ⟨h, fun he => .inl (hi' he)⟩
  | wait =>
    rw [hpc] at hs h hi
    have hi' : s.executed ≠ [] → s.nextWorkItemIndex ≠ 0 := fun he =>
      (hi he).resolve_right fun hp => hp.elim nofun nofun
    simp only at hs
    split at hs
    · cases hs
    · split at hs
      · cases hs
        exact ⟨h, fun he => .inl (hi' he)⟩
      · cases hs
        exact ⟨h, fun _ => .inr (.inl rfl)⟩
  | run =>
    rw [hpc] at hs h hl
    simp only [List.getElem?_eq_getElem hl.2] at hs
    cases hs
    exact ⟨h, fun _ => .inr (.inr rfl)⟩
  | left broke =>
    rw [hpc] at hs h hi
    have hi' : s.executed ≠ [] → s.nextWorkItemIndex ≠ 0 := fun he =>
      (hi he).resolve_right fun hp => hp.elim nofun nofun
    simp only at hs
    split at hs
    · split at hs
      · cases hs
        exact ⟨h, fun he => .inl (hi' he)⟩
      · cases hs
        exact ⟨h, fun he => .inl (hi' he)⟩
    · cases hs
      exact ⟨h, fun he => .inl (hi' he)⟩
  | task | returned | undefined =>
    rw [hpc] at hs
    cases hs

theorem counted_step [DecidableEq V] {l : Label T V} (hl : s.Locals) (h : Counted s)
    (hs : step s l = some s') : Counted s' := by
  cases l with
  | addTask task =>
    cases hs
    exact ⟨h.closures, h.index⟩
  | resolve v =>
    simp only [step] at hs
    split at hs
    · cases hs
    · cases hs
      refine ⟨?_, h.index⟩
      have hlen := List.length_eq_length_filter_add (l := s.waiting) (· ≠ v)
      have hcount : s.waiting.count v = (s.waiting.filter fun x => !decide (x ≠ v)).length := by
        rw [List.count_eq_length_filter]
        congr 2
        funext x
        simp [eq_comm, beq_eq_decide]
      have hclosures := h.closures
      show s.valuesRemaining = ((s.waiting.filter (· ≠ v)).length : Nat) +
        (s.firing + s.waiting.count v : Nat) + (s.pc.todo : Nat)
      omega
  | fire =>
    simp only [step] at hs
    split at hs
    · cases hs
    · cases hs
      refine ⟨?_, h.index⟩
      have hclosures := h.closures
      show s.valuesRemaining - 1 = s.waiting.length + (s.firing - 1 : Nat) + (s.pc.todo : Nat)
      omega
  | run => exact counted_run hl h hs
  | returnTask =>
    simp only [step] at hs
    split at hs
    · rename_i hp
      cases hs
      refine ⟨?_, fun _ => .inl (Nat.succ_ne_zero _)⟩
      have hclosures := h.closures
      rwa [hp] at hclosures
    · cases hs

theorem counted_reach [DecidableEq V] {items : List T} {values : List V} {resolved : V → Bool}
    (hs : (sys items values resolved).Reach Any s) : Counted s := by
  refine hs.invariant_of (I := Counted) (fun s hr => locals_reach hr) ?_ fun s l s' hl h _ hn =>
    counted_step hl h hn
  rintro s rfl
  refine ⟨?_, absurd rfl⟩
  show (values.length : Int) = ((0 : Nat) : Int) + (0 : Nat) + (values.length : Nat)
  omega

/-- No closure is left, and `Await` goes to its `break` with an index into a batch that is cleared. -/
structure Doomed (s : St T V) : Prop where
  done : s.valuesRemaining = 0 ∧ s.waiting = [] ∧ s.firing = 0
  index : s.nextWorkItemIndex ≠ 0
  place : s.pc = .body ∧ s.nextWorkItemIndex = s.localWorkItems.length ∨
    (s.pc = .wait ∨ s.pc = .left true) ∧ s.localWorkItems = [] ∨ s.pc = .undefined

theorem Doomed.step [DecidableEq V] {l : Label T V} (h : Doomed s) (hs : step s l = some s') :
    Doomed s' := by
  obtain ⟨⟨h0, hw, hf⟩, hi, hp⟩ := h
  cases l with
  | addTask task =>
    cases hs
    exact ⟨⟨h0, hw, hf⟩, hi, hp⟩
  | resolve v =>
    simp only [SingleThreadedAwait.step] at hs
    split at hs
    · cases hs
    · cases hs
      refine ⟨⟨h0, ?_, ?_⟩, hi, hp⟩
      · show s.waiting.filter _ = []
        rw [hw, List.filter_nil]
      · show s.firing + s.waiting.count v = 0
        rw [hf, hw, List.count_nil]
  | fire =>
    simp only [SingleThreadedAwait.step, hf, if_true] at hs
    cases hs
  | run =>
    simp only [SingleThreadedAwait.step, run] at hs
    rcases hp with ⟨hp, hl⟩ | ⟨hp | hp, hl⟩ | hp
    · rw [hp] at hs
      simp only [if_pos hl] at hs
      cases hs
      exact ⟨⟨h0, hw, hf⟩, hi, .inr (.inl ⟨.inl rfl, rfl⟩)⟩
    · rw [hp] at hs
      simp only [h0, ne_eq, not_true_eq_false, false_and, if_false, if_true] at hs
      cases hs
      exact ⟨⟨rfl, hw, hf⟩, hi, .inr (.inl ⟨.inr rfl, hl⟩)⟩
    · rw [hp] at hs
      simp only [hl, List.length_nil, Nat.not_lt_zero, if_false, if_pos hi] at hs
      cases hs
      exact ⟨⟨h0, hw, hf⟩, hi, .inr (.inr rfl)⟩
    · rw [hp] at hs
      cases hs
  | returnTask =>
    simp only [SingleThreadedAwait.step] at hs
    split at hs
    · rename_i ht
      rw [ht] at hp
      simp at hp
    · cases hs

/-- The closure of the last value runs while `Await` waits after a batch. -/
theorem doomed_of_late [DecidableEq V] {l : Label T V} (h : s.Locals) (hcount : Counted s)
    (hs : step s l = some s') (hb : ¬ NoLateResolve s l) : Doomed s' := by
  obtain ⟨rfl, h1, hp, hexec, hsw⟩ := not_not.mp hb
  have ha : s.nextWorkItemIndex ≠ 0 := by
    have := hcount.index hexec
    grind
  have hc := hcount.closures
  unfold St.Locals at h
  simp only [step] at hs
  split at hs
  · cases hs
  · rename_i hf
    cases hs
    rcases hp with hp | hp
    · rw [hp] at h hc
      have htodo : (Pc.body : Pc V).todo = 0 := rfl
      have hdrop : s.localWorkItems.drop s.nextWorkItemIndex = [] := by
        have := h.exact
        rw [hsw] at this
        exact List.append_right_eq_self.mp this.symm
      have hlen := List.drop_eq_nil_iff.mp hdrop
      have hw : s.waiting.length = 0 := by omega
      refine ⟨⟨?_, List.length_eq_zero_iff.mp hw, ?_⟩, ha, .inl ⟨hp, ?_⟩⟩
      · show s.valuesRemaining - 1 = 0
        omega
      · show s.firing - 1 = 0
        omega
      · exact Nat.le_antisymm h.valid hlen
    · rw [hp] at h hc
      have htodo : (Pc.wait : Pc V).todo = 0 := rfl
      have hw : s.waiting.length = 0 := by omega
      refine ⟨⟨?_, List.length_eq_zero_iff.mp hw, ?_⟩, ha, .inr (.inl ⟨.inl hp, h.1⟩)⟩
      · show s.valuesRemaining - 1 = 0
        omega
      · show s.firing - 1 = 0
        omega

/-- After the late resolution `Await` does not stop before its `break`, and leaves the loop there. -/
structure Lost (s : St T V) : Prop where
  next : s.pc = .body ∨ s.pc = .wait → ∃ s', run s = some s'
  left : ∀ broke, s.pc = .left broke → ¬ s.Leftover
  returned : s.pc ≠ .returned

theorem Doomed.lost (h : Doomed s) : Lost s := by
  obtain ⟨⟨h0, -, -⟩, hi, hp⟩ := h
  refine ⟨?_, fun broke hb hl => ?_, fun hr => ?_⟩
  · rintro (hp' | hp')
    · unfold run
      rw [hp']
      simp only
      split
      · exact ⟨_, rfl⟩
      · exact ⟨_, rfl⟩
    · unfold run
      rw [hp']
      simp only [h0, ne_eq, not_true_eq_false, false_and, if_false, if_true]
      exact ⟨_, rfl⟩
  · rw [hb] at hp
    rcases hp with ⟨hp, -⟩ | ⟨-, he⟩ | hp
    · cases hp
    · have hvalid := hl.valid
      rw [he] at hvalid
      exact hi (Nat.le_zero.mp hvalid)
    · cases hp
  · rw [hr] at hp
    rcases hp with ⟨hp, -⟩ | ⟨hp, -⟩ | hp
    · cases hp
    · exact hp.elim nofun nofun
    · cases hp

/-- In every run in which the last value is not resolved while `Await` waits after a batch, wherever
the loop is left, the leftover tasks are a valid range with the tasks that were swapped out and not
run. After such a resolution the loop is left with an invalid range in every run. -/
theorem await_leftover [DecidableEq V] (items : List T) (values : List V) (resolved : V → Bool) :
    (∀ s, (sys items values resolved).Reach NoLateResolve s → Correct s) ∧
      ∀ s l s', (sys items values resolved).Reach Any s →
        (sys items values resolved).next s l s' → ¬ NoLateResolve s l →
        ∀ s'', (ofFun s' step).Reach Any s'' → Lost s'' := by
  constructor
  · intro s hs
    have hawake : Awake s := by
      refine hs.invariant_of (I := Awake) (fun s hr => locals_reach (hr.mono fun _ _ _ => trivial))
        ?_ ?_
      · rintro s rfl
        exact awake_init items values resolved
      · intro s l s' h ha hok hn
        exact awake_step h ha hn hok
    exact hawake.correct
  · intro s l s' hs hn hb s'' hr
    have hdoomed : Doomed s' := doomed_of_late (locals_reach hs) (counted_reach hs) hn hb
    refine (hr.invariant (I := Doomed) ?_ fun _ _ _ h _ hn => h.step hn).lost
    rintro s rfl
    exact hdoomed

/-- `Await` runs a task; its value is resolved while it waits for the next one. -/
def lateResolve : List (Label Nat Nat) :=
  [.run, .run, .run, .run, .run, .run, .returnTask, .run, .run, .resolve 0, .fire, .run]

/-- The loop is left with index 1 into an empty batch. -/
theorem not_await_leftover : ¬ ∀ s : St Nat Nat,
    (sys [7] [0] fun _ => false).Reach Any s → ∀ broke, s.pc = .left broke → s.Leftover := by
  intro h
  have hr : ∀ s, runLabels step (init [7] [0] fun _ => false) lateResolve = some s →
      ∀ broke, s.pc = .left broke → s.Leftover := fun s hs =>
    h s (reach_runLabels (fun _ => True) (.init rfl) lateResolve (fun _ _ => trivial) hs)
  have hv := (hr _ rfl true rfl).valid
  exact absurd hv (by decide)

/-- A run in which a task is left over for the queue. -/
theorem await_leftover_seven : ∃ s : St Nat Nat, s.pc = .left false ∧ s.nextWorkItemIndex = 1 ∧
    s.localWorkItems = [7, 8] ∧ s.Leftover := by
  have hr : ∀ s, runLabels (guarded step NoLateResolve) (init [7, 8] [0] fun _ => false)
      [.run, .run, .run, .run, .run, .run, .resolve 0, .fire, .returnTask, .run] = some s →
      Correct s := fun s hs =>
    (await_leftover [7, 8] [0] fun _ => false).1 s (reach_guarded (.init rfl) _ hs)
  exact ⟨_, rfl, rfl, rfl, (hr _ rfl).left false rfl⟩

end SingleThreadedAwait

end AsyncLib
