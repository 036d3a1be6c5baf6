import Mathlib.Algebra.BigOperators.Group.List.Basic
import Mathlib.Data.List.Infix
import Mathlib.Algebra.GroupWithZero.Nat
import Mathlib.Algebra.Group.Int.Defs

/-!
# `StreamBatchScheduler`

`async/runtime/batch_task.h`: `Schedule` puts a task into the open batch and starts a new batch where
the task does not fit or the batch is full. Both questions are answered by `Batch::mSize`, which is 0
in a new batch and which `AddTask` does not change. The batch parameter of `TaskFitsInBatch` is read
as the open batch.

* `St`: every batch that was started, and the open one. The callback of a batch, which takes its tasks
  away later, is not in the model.
* `Right`: what the batches should be after a sequence of calls.
* `schedule_right_iff`: they are that until the accepted tasks fill the first batch.
-/

namespace AsyncLib

namespace StreamBatchScheduler

/-! ## The code -/

/-- `Batch`: its tasks, `mSize`, and whether it was closed. -/
structure Batch (α : Type) where
  mTasks : List α
  mSize : Nat
  mClosed : Bool
  deriving DecidableEq, Repr

namespace Batch

variable {α : Type}

/-- A new batch. -/
def new : Batch α := ⟨[], 0, false⟩

/-- `AddTask`, which leaves `mSize` alone. -/
def addTask (b : Batch α) (task : α) : Batch α := { b with mTasks := b.mTasks ++ [task] }

/-- `Close`. -/
def close (b : Batch α) : Batch α := { b with mClosed := true }

end Batch

/-- The batches that were started, and the open one. -/
structure St (α : Type) where
  /-- The batches that were started, in order. -/
  batches : List (Batch α)
  /-- The position of the open batch among them. -/
  mOpenBatch : Option Nat
  deriving DecidableEq, Repr

variable {α : Type} (mMaxBatchSize : Nat) (size : α → Nat)

/-- No batch. -/
def init : St α := ⟨[], none⟩

/-- `*mOpenBatch`. -/
def St.openBatch (s : St α) : Option (Batch α) := s.mOpenBatch.bind fun i => s.batches[i]?

/-- The open batch changes. -/
def St.modifyOpen (s : St α) (f : Batch α → Batch α) : St α :=
  match s.mOpenBatch with
  | some i => { s with batches := s.batches.modify i f }
  | none => s

/-- `StartNewBatch`. -/
def startNewBatch (s : St α) : St α :=
  let s := s.modifyOpen Batch.close
  ⟨s.batches ++ [.new], some s.batches.length⟩

/-- `TaskFitsInBatch`. -/
def taskFitsInBatch (task : α) (batch : Batch α) : Bool :=
  decide (batch.mSize + size task ≤ mMaxBatchSize)

/-- `Schedule`, with its answer. -/
def schedule (s : St α) (task : α) : Bool × St α :=
  if size task > mMaxBatchSize then (false, s)
  else
    let s := if s.openBatch.all fun b => !taskFitsInBatch mMaxBatchSize size task b then
        startNewBatch s
      else s
    let s := s.modifyOpen (·.addTask task)
    (true, if s.openBatch.any fun b => b.mSize == mMaxBatchSize then startNewBatch s else s)

/-- The calls of `Schedule` one after the other: what they return, and the state after them. -/
def run (tasks : List α) : List Bool × St α :=
  tasks.foldl (fun p task =>
    let q := schedule mMaxBatchSize size p.2 task
    (p.1 ++ [q.1], q.2)) ([], init)

/-! ## What the batches should be -/

/-- The tasks that are not larger than a batch. -/
def accepted (tasks : List α) : List α := tasks.filter fun t => size t ≤ mMaxBatchSize

/-- The size of the tasks. -/
def total (tasks : List α) : Nat := (tasks.map size).sum

/-- The batch is full, or the task that came next did not fit. -/
def Due (b : Batch α) (later : List (Batch α)) : Prop :=
  total size b.mTasks = mMaxBatchSize ∨
    ∃ t, (later.flatMap Batch.mTasks).head? = some t ∧
      mMaxBatchSize < total size b.mTasks + size t

/-- Each task that fits is in one batch, in order, within the bound, and batches are closed when
due. -/
structure Right (tasks : List α) (replies : List Bool) (batches : List (Batch α)) : Prop where
  replies : replies = tasks.map fun t => decide (size t ≤ mMaxBatchSize)
  /-- Every accepted task is in one batch, and the batches hold them in order. -/
  order : batches.flatMap Batch.mTasks = accepted mMaxBatchSize size tasks
  bound : ∀ b ∈ batches, total size b.mTasks ≤ mMaxBatchSize
  closed : ∀ i b, batches[i]? = some b →
    (b.mClosed = true ↔ Due mMaxBatchSize size b (batches.drop (i + 1)))

/-! ## What they are -/

variable {mMaxBatchSize : Nat} {size : α → Nat}

/-- One batch, which takes every accepted task and is never closed. -/
def oneBatch (tasks : List α) : St α :=
  if tasks = [] then init else ⟨[⟨tasks, 0, false⟩], some 0⟩

theorem oneBatch_concat (tasks : List α) (t : α) :
    oneBatch (tasks ++ [t]) = ⟨[⟨tasks ++ [t], 0, false⟩], some 0⟩ :=
  if_neg (by simp)

theorem schedule_oneBatch (hm : 1 ≤ mMaxBatchSize) (tasks : List α) {t : α}
    (ht : size t ≤ mMaxBatchSize) :
    schedule mMaxBatchSize size (oneBatch tasks) t = (true, oneBatch (tasks ++ [t])) := by
  have hfit : ¬ size t > mMaxBatchSize := Nat.not_lt.mpr ht
  have hfull : (0 == mMaxBatchSize) = false := by
    rw [beq_eq_false_iff_ne]
    omega
  rw [schedule, if_neg hfit, oneBatch_concat]
  by_cases h : tasks = []
  · subst h
    rw [oneBatch, if_pos rfl]
    simp [init, St.openBatch, startNewBatch, St.modifyOpen, Batch.new, Batch.addTask, hfull]
  · rw [oneBatch, if_neg h]
    simp [St.openBatch, St.modifyOpen, Batch.addTask, taskFitsInBatch, hfull, ht]

theorem run_concat (tasks : List α) (t : α) :
    run mMaxBatchSize size (tasks ++ [t]) =
      ((run mMaxBatchSize size tasks).1 ++
        [(schedule mMaxBatchSize size (run mMaxBatchSize size tasks).2 t).1],
      (schedule mMaxBatchSize size (run mMaxBatchSize size tasks).2 t).2) := by
  rw [run, List.foldl_append]
  rfl

theorem accepted_concat (tasks : List α) (t : α) :
    accepted mMaxBatchSize size (tasks ++ [t]) =
      accepted mMaxBatchSize size tasks ++ if size t ≤ mMaxBatchSize then [t] else [] := by
  rw [accepted, List.filter_append, List.filter_singleton]
  by_cases ht : size t ≤ mMaxBatchSize <;> simp [accepted, ht]

/-- All accepted tasks go to the first batch. -/
theorem run_eq (hm : 1 ≤ mMaxBatchSize) (tasks : List α) :
    run mMaxBatchSize size tasks = (tasks.map fun t => decide (size t ≤ mMaxBatchSize),
      oneBatch (accepted mMaxBatchSize size tasks)) := by
  induction tasks using List.reverseRecOn with
  | nil => rfl
  | append_singleton tasks t ih =>
    rw [run_concat, ih, List.map_append, accepted_concat]
    by_cases ht : size t ≤ mMaxBatchSize
    · rw [schedule_oneBatch hm _ ht, if_pos ht]
      simp [ht]
    · have hlarge : size t > mMaxBatchSize := Nat.not_le.mp ht
      rw [schedule, if_pos hlarge, if_neg ht]
      simp [ht]

/-- The one batch is right while it has room. -/
theorem right_oneBatch_iff (tasks : List α) :
    Right mMaxBatchSize size tasks (tasks.map fun t => decide (size t ≤ mMaxBatchSize))
      (oneBatch (accepted mMaxBatchSize size tasks)).batches ↔
      accepted mMaxBatchSize size tasks = [] ∨
        total size (accepted mMaxBatchSize size tasks) < mMaxBatchSize := by
  by_cases h : accepted mMaxBatchSize size tasks = []
  · refine ⟨fun _ => .inl h, fun _ => ⟨rfl, ?_, ?_, ?_⟩⟩
    · rw [h]
      rfl
    · rw [h]
      nofun
    · rw [h]
      nofun
  · rw [oneBatch, if_neg h]
    constructor
    · intro hr
      have hle : total size (accepted mMaxBatchSize size tasks) ≤ mMaxBatchSize :=
        hr.bound _ (List.mem_singleton.mpr rfl)
      have hopen := (hr.closed 0 _ rfl).not.mp Bool.false_ne_true
      have hne : total size (accepted mMaxBatchSize size tasks) ≠ mMaxBatchSize :=
        fun he => hopen (.inl he)
      exact .inr (Nat.lt_of_le_of_ne hle hne)
    · rintro (hnil | hlt)
      · exact absurd hnil h
      · refine ⟨rfl, List.flatMap_singleton .., fun b hb => ?_, fun i b hb => ?_⟩
        · rw [List.mem_singleton.mp hb]
          exact Nat.le_of_lt hlt
        · cases i with
          | zero =>
            cases hb
            refine ⟨nofun, ?_⟩
            rintro (he | ⟨t, ht, -⟩)
            · exact absurd he (Nat.ne_of_lt hlt)
            · cases ht
          | succ i => cases hb

/-- A prefix of the calls accepts no more. -/
theorem total_accepted_le {us tasks : List α} (h : us <+: tasks) :
    total size (accepted mMaxBatchSize size us) ≤ total size (accepted mMaxBatchSize size tasks) := by
  obtain ⟨rest, rfl⟩ := h
  rw [accepted, accepted, List.filter_append, total, total, List.map_append, List.sum_append]
  exact Nat.le_add_right _ _

/-- **The batches are right after every call if and only if all accepted tasks together are smaller
than a batch.** -/
theorem schedule_right_iff (mMaxBatchSize : Nat) (hm : 1 ≤ mMaxBatchSize) (size : α → Nat)
    (tasks : List α) :
    (∀ us, us <+: tasks → Right mMaxBatchSize size us (run mMaxBatchSize size us).1
      (run mMaxBatchSize size us).2.batches) ↔
      total size (accepted mMaxBatchSize size tasks) < mMaxBatchSize := by
  constructor
  · intro h
    have hr := h tasks (List.prefix_refl tasks)
    rw [run_eq hm, right_oneBatch_iff] at hr
    rcases hr with hnil | hlt
    · rw [hnil]
      exact hm
    · exact hlt
  · intro h us hus
    rw [run_eq hm, right_oneBatch_iff]
    exact .inr (Nat.lt_of_le_of_lt (total_accepted_le hus) h)

/-- Two tasks of size 1 are in one open batch, whose maximum is 1. -/
theorem not_schedule_right : ¬ ∀ (m : Nat), 1 ≤ m → ∀ tasks : List Nat, (∀ t ∈ tasks, 1 ≤ t) →
    Right m id tasks (run m id tasks).1 (run m id tasks).2.batches := by
  intro h
  have hr := h 1 (by decide) [1, 1] (by decide)
  exact absurd (hr.bound ⟨[1, 1], 0, false⟩ (by decide)) (by decide)

/-- Tasks of sizes 2, 9 and 1 and a maximum of 4: the second is refused, the batch has room. -/
theorem schedule_right_three : Right 4 id [2, 9, 1] (run 4 id [2, 9, 1]).1
    (run 4 id [2, 9, 1]).2.batches :=
  (schedule_right_iff 4 (by decide) id [2, 9, 1]).mpr (by decide) [2, 9, 1] (List.prefix_refl _)

end StreamBatchScheduler

end AsyncLib
