import AsyncLib.Concurrent.TaskPriorityDeque

/-!
# `TaskPriorityLockDeque` against `TaskPriorityDeque`

`async/concurrent/task_priority_queue.h`. The unbounded sibling of `TaskPriorityDeque`: four
`std::list`s behind one mutex, and a counter `elems_`. The counter has no initial value, and the pops
return before they count down: `elems_` is whatever the memory held, plus the number of pushes.

* `popFront`, `popBack`: `none` is a call that runs off the end of the function without a `return`.
* `Agrees e cs`: started with `e` in `elems_`, the calls `cs` are answered as by a fresh
  `TaskPriorityDeque`, and every `Flush` of them leaves an empty queue.
* `agrees_iff`: they agree iff at each call the number of pushes so far, plus `e`, says what the call
  asks about the tasks that are queued (`Counts`).
-/

namespace AsyncLib

/-- The members of `TaskPriorityLockDeque`. The first element of a list is its `front()`. -/
structure TaskPriorityLockDeque (τ : Type) where
  critical_priority_queue_ : List τ
  high_priority_queue_ : List τ
  default_priority_queue_ : List τ
  low_priority_queue_ : List τ
  elems_ : Word64

namespace TaskPriorityLockDeque

open TaskPriorityDeque (kCapacity kTaskPriorities)

variable {τ : Type}

/-- The defaulted constructor: `elems_` keeps the value `e` that its memory had. -/
def fresh (e : Word64) : TaskPriorityLockDeque τ := ⟨[], [], [], [], e⟩

/-- `PushFront`. -/
def pushFront (d : TaskPriorityLockDeque τ) (task : τ) (p : TaskPriority) :
    Option τ × TaskPriorityLockDeque τ :=
  let d :=
    if p = .kCritical then { d with critical_priority_queue_ := task :: d.critical_priority_queue_ }
    else if p = .kHigh then { d with high_priority_queue_ := task :: d.high_priority_queue_ }
    else if p = .kDefault then { d with default_priority_queue_ := task :: d.default_priority_queue_ }
    else { d with low_priority_queue_ := task :: d.low_priority_queue_ }
  (none, { d with elems_ := d.elems_ + 1 })

/-- `PushBack`. -/
def pushBack (d : TaskPriorityLockDeque τ) (task : τ) (p : TaskPriority) :
    Option τ × TaskPriorityLockDeque τ :=
  let d :=
    if p = .kCritical then
      { d with critical_priority_queue_ := d.critical_priority_queue_ ++ [task] }
    else if p = .kHigh then { d with high_priority_queue_ := d.high_priority_queue_ ++ [task] }
    else if p = .kDefault then { d with default_priority_queue_ := d.default_priority_queue_ ++ [task] }
    else { d with low_priority_queue_ := d.low_priority_queue_ ++ [task] }
  (none, { d with elems_ := d.elems_ + 1 })

/-- `PopFront`. Every list that is not empty returns before `elems_ -= 1`. -/
def popFront (d : TaskPriorityLockDeque τ) : Option (Option τ × TaskPriorityLockDeque τ) :=
  if d.elems_ = 0 then some (none, d)
  else match d.critical_priority_queue_ with
  | res :: rest => some (some res, { d with critical_priority_queue_ := rest })
  | [] => match d.high_priority_queue_ with
    | res :: rest => some (some res, { d with high_priority_queue_ := rest })
    | [] => match d.default_priority_queue_ with
      | res :: rest => some (some res, { d with default_priority_queue_ := rest })
      | [] => match d.low_priority_queue_ with
        | res :: rest => some (some res, { d with low_priority_queue_ := rest })
        | [] => none

/-- `PopBack`. -/
def popBack (d : TaskPriorityLockDeque τ) : Option (Option τ × TaskPriorityLockDeque τ) :=
  if d.elems_ = 0 then some (none, d)
  else match d.critical_priority_queue_.getLast? with
  | some res => some (some res,
      { d with critical_priority_queue_ := d.critical_priority_queue_.dropLast })
  | none => match d.high_priority_queue_.getLast? with
    | some res => some (some res, { d with high_priority_queue_ := d.high_priority_queue_.dropLast })
    | none => match d.default_priority_queue_.getLast? with
      | some res => some (some res,
          { d with default_priority_queue_ := d.default_priority_queue_.dropLast })
      | none => match d.low_priority_queue_.getLast? with
        | some res => some (some res,
            { d with low_priority_queue_ := d.low_priority_queue_.dropLast })
        | none => none

/-- `Empty`. -/
def empty (d : TaskPriorityLockDeque τ) : Bool := d.elems_ == 0

/-- `Size`. -/
def size (d : TaskPriorityLockDeque τ) : Nat := d.elems_.toNat

/-- `Flush`, with its assertion. -/
def flush : Nat → TaskPriorityLockDeque τ → Option (TaskPriorityLockDeque τ)
  | 0, _ => none
  | fuel + 1, d =>
    if d.empty then some d
    else match d.popFront with
    | some (some _, d') => flush fuel d'
    | _ => none

/-- One call. -/
def call (fuel : Nat) (d : TaskPriorityLockDeque τ) :
    LevelCall TaskPriority τ → Option (DequeRet τ × TaskPriorityLockDeque τ)
  | .pushFront task p => let (r, d') := d.pushFront task p; some (.task r, d')
  | .popFront => d.popFront.map fun (r, d') => (.task r, d')
  | .pushBack task p => let (r, d') := d.pushBack task p; some (.task r, d')
  | .popBack => d.popBack.map fun (r, d') => (.task r, d')
  | .size => some (.size d.size, d)
  | .empty => some (.empty d.empty, d)
  | .flush => (d.flush fuel).map fun d' => (.flushed, d')

/-- The answers of the calls `cs`, one after another. -/
def answers (fuel : Nat) : TaskPriorityLockDeque τ → List (LevelCall TaskPriority τ) →
    Option (List (DequeRet τ))
  | _, [] => some []
  | d, c :: cs => do
    let (r, d') ← d.call fuel c
    let rs ← answers fuel d' cs
    return r :: rs

/-- The list of a priority. -/
def queue (d : TaskPriorityLockDeque τ) : TaskPriority → List τ
  | .kCritical => d.critical_priority_queue_
  | .kHigh => d.high_priority_queue_
  | .kDefault => d.default_priority_queue_
  | .kLow => d.low_priority_queue_

/-- Every `Flush` among the calls `cs` leaves an empty queue. -/
def FlushEmpties (fuel : Nat) : TaskPriorityLockDeque τ → List (LevelCall TaskPriority τ) → Prop
  | _, [] => True
  | d, c :: cs => ∀ r d', d.call fuel c = some (r, d') →
      (c = .flush → ∀ p, d'.queue p = []) ∧ FlushEmpties fuel d' cs

/-- Started with `e` in `elems_`, and run long enough, the calls `cs` are answered as by a fresh
`TaskPriorityDeque`, and each `Flush` of them leaves an empty queue. -/
def Agrees [Inhabited τ] (e : Word64) (cs : List (LevelCall TaskPriority τ)) : Prop :=
  ∃ rounds, ∀ fuel, rounds ≤ fuel → ∃ rs d, answers fuel (fresh e) cs = some rs ∧
    TaskPriorityDeque.run fuel TaskPriorityDeque.fresh cs = some (rs, d) ∧
    FlushEmpties fuel (fresh e) cs

/-- No push of `cs` goes to a priority that holds 1024 tasks already. -/
def Fits : (TaskPriority → List τ) → List (LevelCall TaskPriority τ) → Prop
  | _, [] => True
  | ls, c :: cs => (match c with
      | .pushFront _ p | .pushBack _ p => (ls p).length ≠ kCapacity
      | _ => True) ∧
    Fits (Levels.next kCapacity kTaskPriorities ls c) cs

/-- What the call asks about the tasks `ls` is what the count `n` says. -/
def Tells (n : Word64) (ls : TaskPriority → List τ) : LevelCall TaskPriority τ → Prop
  | .pushFront _ _ | .pushBack _ _ => True
  | .popFront | .popBack | .empty => n = 0 ↔ ∀ p, ls p = []
  | .size => n.toNat = (kTaskPriorities.map fun p => (ls p).length).sum
  | .flush => n = 0 ∧ ∀ p, ls p = []

/-- The count after a call: pushes count, pops do not. -/
def count (n : Word64) : LevelCall TaskPriority τ → Word64
  | .pushFront _ _ | .pushBack _ _ => n + 1
  | _ => n

/-- At each call of `cs`, the number of pushes before it plus the initial `n` tells what the call
asks about the tasks queued then. -/
def Counts : Word64 → (TaskPriority → List τ) → List (LevelCall TaskPriority τ) → Prop
  | _, _, [] => True
  | n, ls, c :: cs =>
    Tells n ls c ∧ Counts (count n c) (Levels.next kCapacity kTaskPriorities ls c) cs

/-! ## One call -/

/-- The deque with the list of one priority replaced. -/
def setQueue (d : TaskPriorityLockDeque τ) (p : TaskPriority) (l : List τ) :
    TaskPriorityLockDeque τ :=
  match p with
  | .kCritical => { d with critical_priority_queue_ := l }
  | .kHigh => { d with high_priority_queue_ := l }
  | .kDefault => { d with default_priority_queue_ := l }
  | .kLow => { d with low_priority_queue_ := l }

theorem queue_setQueue (d : TaskPriorityLockDeque τ) (p p' : TaskPriority) (l : List τ) :
    (d.setQueue p l).queue p' = Function.update d.queue p l p' := by
  cases p <;> cases p' <;> simp [setQueue, queue]

theorem elems_setQueue (d : TaskPriorityLockDeque τ) (p : TaskPriority) (l : List τ) :
    (d.setQueue p l).elems_ = d.elems_ := by cases p <;> rfl

theorem pushFront_eq (d : TaskPriorityLockDeque τ) (task : τ) (p : TaskPriority) :
    d.pushFront task p =
      (none, { d.setQueue p (task :: d.queue p) with elems_ := d.elems_ + 1 }) := by
  cases p <;> rfl

theorem pushBack_eq (d : TaskPriorityLockDeque τ) (task : τ) (p : TaskPriority) :
    d.pushBack task p =
      (none, { d.setQueue p (d.queue p ++ [task]) with elems_ := d.elems_ + 1 }) := by
  cases p <;> rfl

/-- `PopFront` takes from the first list that is not empty, and runs off the end if there is none. -/
theorem popFront_eq (d : TaskPriorityLockDeque τ) (he : d.elems_ ≠ 0) :
    d.popFront = (Levels.top kTaskPriorities d.queue).map fun p =>
      ((d.queue p).head?, d.setQueue p (d.queue p).tail) := by
  obtain ⟨c, h, m, l, e⟩ := d
  rw [TaskPriorityLockDeque.popFront, if_neg he]
  cases c <;> cases h <;> cases m <;> cases l <;> rfl

theorem popBack_eq (d : TaskPriorityLockDeque τ) (he : d.elems_ ≠ 0) :
    d.popBack = (Levels.top kTaskPriorities d.queue).map fun p =>
      ((d.queue p).getLast?, d.setQueue p (d.queue p).dropLast) := by
  obtain ⟨c, h, m, l, e⟩ := d
  rw [TaskPriorityLockDeque.popBack, if_neg he]
  cases c <;> cases h <;> cases m <;> cases l <;> rfl

/-- The deque holds the lists `ls`, and `n` in `elems_`. -/
structure Rel (d : TaskPriorityLockDeque τ) (n : Word64) (ls : TaskPriority → List τ) : Prop where
  elems : d.elems_ = n
  queue : ∀ p, d.queue p = (ls p).reverse

variable {d : TaskPriorityLockDeque τ} {n : Word64} {ls : TaskPriority → List τ}

theorem fresh_rel (e : Word64) : Rel (fresh e : TaskPriorityLockDeque τ) e fun _ => [] :=
  ⟨rfl, fun p => by cases p <;> rfl⟩

theorem Rel.setQueue (h : Rel d n ls) (p : TaskPriority) {l l' : List τ} (hl : l' = l.reverse) :
    Rel (d.setQueue p l') n (Function.update ls p l) := by
  refine ⟨(elems_setQueue d p l').trans h.elems, fun p' => ?_⟩
  rw [queue_setQueue, hl]
  by_cases hp : p' = p
  · subst hp
    simp
  · simp [hp, h.queue p']

theorem Rel.top (h : Rel d n ls) :
    Levels.top kTaskPriorities d.queue = Levels.top kTaskPriorities ls := by
  simp only [Levels.top, h.queue, List.isEmpty_reverse]

theorem Rel.pushFront (h : Rel d n ls) (task : τ) (p : TaskPriority) :
    Rel (d.pushFront task p).2 (n + 1) (Function.update ls p (ls p ++ [task])) := by
  rw [pushFront_eq]
  have hs : Rel (d.setQueue p (task :: d.queue p)) n (Function.update ls p (ls p ++ [task])) :=
    h.setQueue p (by simp [h.queue p])
  exact ⟨by simp [h.elems], hs.queue⟩

theorem Rel.pushBack (h : Rel d n ls) (task : τ) (p : TaskPriority) :
    Rel (d.pushBack task p).2 (n + 1) (Function.update ls p (task :: ls p)) := by
  rw [pushBack_eq]
  have hs : Rel (d.setQueue p (d.queue p ++ [task])) n (Function.update ls p (task :: ls p)) :=
    h.setQueue p (by simp [h.queue p])
  exact ⟨by simp [h.elems], hs.queue⟩

/-- `PopFront` while the count is not zero. -/
theorem Rel.popFront (h : Rel d n ls) (hn : n ≠ 0) :
    d.popFront = (Levels.top kTaskPriorities ls).map fun p =>
      ((ls p).getLast?, d.setQueue p (ls p).dropLast.reverse) := by
  rw [popFront_eq d (by rwa [h.elems]), h.top]
  simp only [h.queue, List.head?_reverse, List.tail_reverse]

theorem Rel.popBack (h : Rel d n ls) (hn : n ≠ 0) :
    d.popBack = (Levels.top kTaskPriorities ls).map fun p =>
      ((ls p).head?, d.setQueue p (ls p).tail.reverse) := by
  rw [popBack_eq d (by rwa [h.elems]), h.top]
  simp only [h.queue, List.getLast?_reverse, List.dropLast_reverse]

theorem top_eq_none_iff : Levels.top kTaskPriorities ls = none ↔ ∀ p, ls p = [] := by
  refine ⟨fun h p => ?_, fun h => by simp [Levels.top, h]⟩
  have := List.find?_eq_none.mp h p (by cases p <;> decide)
  simpa using this

theorem flush_zero (he : d.elems_ = 0) (fuel : Nat) : d.flush (fuel + 1) = some d := by
  rw [flush, TaskPriorityLockDeque.empty, he]
  rfl

/-- `Flush` with a count that is not zero pops all tasks and then runs off the end of `PopFront`. -/
theorem Rel.flush_none (h : Rel d n ls) (hn : n ≠ 0) (fuel : Nat) : d.flush fuel = none := by
  induction fuel generalizing d ls with
  | zero => rfl
  | succ fuel ih =>
    have hne : d.empty = false := by
      rw [TaskPriorityLockDeque.empty, h.elems]
      exact beq_eq_false_iff_ne.mpr hn
    rw [flush, hne, h.popFront hn]
    cases ht : Levels.top kTaskPriorities ls with
    | none => rfl
    | some p =>
      have hp : ls p ≠ [] := by simpa using List.find?_some ht
      simp only [Option.map_some, List.getLast?_eq_some_getLast hp, Bool.false_eq_true, ↓reduceIte]
      exact ih (h.setQueue p rfl)

section Pop

variable {answer : Option (Option τ × TaskPriorityLockDeque τ)} {take : List τ → Option τ}
  {rest : List τ → List τ}

/-- A pop, at either end, where the count is zero just when no task is queued. -/
theorem Rel.pop (h : Rel d n ls) (hzero : d.elems_ = 0 → answer = some (none, d))
    (hpos : n ≠ 0 → answer = (Levels.top kTaskPriorities ls).map fun p =>
      (take (ls p), d.setQueue p (rest (ls p)).reverse))
    (ht : n = 0 ↔ ∀ p, ls p = []) :
    ∃ d', answer = some ((Levels.top kTaskPriorities ls).bind fun p => take (ls p), d') ∧
      Rel d' n ((Levels.top kTaskPriorities ls).elim ls fun p =>
        Function.update ls p (rest (ls p))) := by
  cases htop : Levels.top kTaskPriorities ls with
  | none => exact ⟨d, hzero (h.elems.trans (ht.mpr (top_eq_none_iff.mp htop))), h⟩
  | some p =>
    have hn : n ≠ 0 := fun hz => by
      rw [top_eq_none_iff.mpr (ht.mp hz)] at htop
      cases htop
    refine ⟨d.setQueue p (rest (ls p)).reverse, ?_, h.setQueue p rfl⟩
    rw [hpos hn, htop]
    rfl

/-- A pop with the right answer. -/
theorem Rel.zero_iff_of_pop (h : Rel d n ls) (hzero : d.elems_ = 0 → answer = some (none, d))
    (hpos : n ≠ 0 → answer = (Levels.top kTaskPriorities ls).map fun p =>
      (take (ls p), d.setQueue p (rest (ls p)).reverse))
    (htake : ∀ l, take l = none → l = []) {d' : TaskPriorityLockDeque τ}
    (hp : answer = some ((Levels.top kTaskPriorities ls).bind fun p => take (ls p), d')) :
    n = 0 ↔ ∀ p, ls p = [] := by
  rw [← top_eq_none_iff]
  constructor
  · intro hn
    rw [hzero (h.elems.trans hn)] at hp
    cases htop : Levels.top kTaskPriorities ls with
    | none => rfl
    | some p =>
      have hne : ls p ≠ [] := by simpa using List.find?_some htop
      rw [htop] at hp
      exact absurd (htake _ (congrArg Prod.fst (Option.some.inj hp)).symm) hne
  · intro htop
    by_contra hn
    rw [hpos hn, htop] at hp
    cases hp

end Pop

theorem popFront_zero (he : d.elems_ = 0) : d.popFront = some (none, d) := by
  rw [TaskPriorityLockDeque.popFront, if_pos he]

theorem popBack_zero (he : d.elems_ = 0) : d.popBack = some (none, d) := by
  rw [TaskPriorityLockDeque.popBack, if_pos he]

/-- A call that the count answers rightly: it is answered as on the lists. -/
theorem Rel.call (h : Rel d n ls) {c : LevelCall TaskPriority τ} {cs : List (LevelCall TaskPriority τ)}
    (hfit : Fits ls (c :: cs)) (ht : Tells n ls c) (fuel : Nat) :
    ∃ d', d.call (fuel + 1) c = some (Levels.ret kCapacity kTaskPriorities ls c, d') ∧
      Rel d' (count n c) (Levels.next kCapacity kTaskPriorities ls c) := by
  cases c with
  | pushFront task p =>
    have hl : (ls p).length ≠ kCapacity := hfit.1
    refine ⟨(d.pushFront task p).2, ?_, ?_⟩
    · simp only [TaskPriorityLockDeque.call, pushFront_eq, Levels.ret, hl, ↓reduceIte]
    · simpa only [Levels.next, count, hl, ↓reduceIte] using h.pushFront task p
  | pushBack task p =>
    have hl : (ls p).length ≠ kCapacity := hfit.1
    refine ⟨(d.pushBack task p).2, ?_, ?_⟩
    · simp only [TaskPriorityLockDeque.call, pushBack_eq, Levels.ret, hl, ↓reduceIte]
    · simpa only [Levels.next, count, hl, ↓reduceIte] using h.pushBack task p
  | popFront =>
    obtain ⟨d', hp, hr⟩ := h.pop popFront_zero h.popFront ht
    exact ⟨d', by rw [TaskPriorityLockDeque.call, hp]; rfl, hr⟩
  | popBack =>
    obtain ⟨d', hp, hr⟩ := h.pop popBack_zero h.popBack ht
    exact ⟨d', by rw [TaskPriorityLockDeque.call, hp]; rfl, hr⟩
  | size =>
    refine ⟨d, ?_, h⟩
    rw [TaskPriorityLockDeque.call, TaskPriorityLockDeque.size, h.elems, show n.toNat = _ from ht]
    rfl
  | empty =>
    refine ⟨d, ?_, h⟩
    have he : d.empty = kTaskPriorities.all fun p => (ls p).isEmpty := by
      rw [Bool.eq_iff_iff, TaskPriorityDeque.all_isEmpty_iff, TaskPriorityLockDeque.empty, h.elems,
        beq_iff_eq]
      exact ht
    rw [TaskPriorityLockDeque.call, he]
    rfl
  | flush =>
    obtain ⟨hz, hnil⟩ := ht
    refine ⟨d, ?_, h.elems, fun p => ?_⟩
    · rw [TaskPriorityLockDeque.call, flush_zero (h.elems.trans hz)]
      rfl
    · rw [h.queue p, hnil p]
      rfl

/-- A call that is answered as on the lists, by a count that then answers rightly. -/
theorem Rel.tells_of_call (h : Rel d n ls) {c : LevelCall TaskPriority τ} {fuel : Nat}
    {d' : TaskPriorityLockDeque τ}
    (hc : d.call (fuel + 1) c = some (Levels.ret kCapacity kTaskPriorities ls c, d'))
    (hflush : c = .flush → ∀ p, d'.queue p = []) : Tells n ls c := by
  cases c with
  | pushFront task p => trivial
  | pushBack task p => trivial
  | popFront =>
    rw [TaskPriorityLockDeque.call, Option.map_eq_some_iff] at hc
    obtain ⟨⟨r, d''⟩, hp, he⟩ := hc
    cases he
    exact h.zero_iff_of_pop popFront_zero h.popFront (fun l hl => by simpa using hl) hp
  | popBack =>
    rw [TaskPriorityLockDeque.call, Option.map_eq_some_iff] at hc
    obtain ⟨⟨r, d''⟩, hp, he⟩ := hc
    cases he
    exact h.zero_iff_of_pop popBack_zero h.popBack (fun l hl => by simpa using hl) hp
  | size =>
    simp only [TaskPriorityLockDeque.call, Levels.ret, Option.some.injEq, Prod.mk.injEq,
      DequeRet.size.injEq, TaskPriorityLockDeque.size, h.elems] at hc
    exact hc.1
  | empty =>
    simp only [TaskPriorityLockDeque.call, Levels.ret, Option.some.injEq, Prod.mk.injEq,
      DequeRet.empty.injEq, TaskPriorityLockDeque.empty, h.elems] at hc
    have := hc.1
    rw [Bool.eq_iff_iff, TaskPriorityDeque.all_isEmpty_iff, beq_iff_eq] at this
    exact this
  | flush =>
    by_cases hn : n = 0
    · -- `Flush` returns at once, so the queue that it leaves is the one it found
      rw [TaskPriorityLockDeque.call, flush_zero (h.elems.trans hn)] at hc
      cases hc
      exact ⟨hn, fun p => by simpa [h.queue p] using hflush rfl p⟩
    · rw [TaskPriorityLockDeque.call, h.flush_none hn] at hc
      cases hc

/-! ## A sequence of calls -/

/-- From a deque that holds `ls` and counts `n`, the calls are answered as on the lists, and every
`Flush` leaves an empty queue, iff the count answers every call rightly. -/
theorem Rel.answers_iff (h : Rel d n ls) {cs : List (LevelCall TaskPriority τ)} (hfit : Fits ls cs)
    (fuel : Nat) :
    (answers (fuel + 1) d cs = some (Levels.rets kCapacity kTaskPriorities ls cs) ∧
      FlushEmpties (fuel + 1) d cs) ↔ Counts n ls cs := by
  induction cs generalizing d n ls with
  | nil => simp [answers, Levels.rets, FlushEmpties, Counts]
  | cons c cs ih =>
    constructor
    · rintro ⟨ha, hfl⟩
      cases hcall : d.call (fuel + 1) c with
      | none => simp [answers, hcall] at ha
      | some rd =>
        obtain ⟨r, d'⟩ := rd
        simp only [answers, hcall, Levels.rets, Option.bind_eq_bind, Option.bind_some,
          Option.bind_eq_some_iff] at ha
        obtain ⟨rs, hrs, he⟩ := ha
        cases he
        obtain ⟨hempty, hrest⟩ := hfl _ _ hcall
        have ht := h.tells_of_call hcall hempty
        obtain ⟨d'', hcall', hr⟩ := h.call hfit ht fuel
        rw [hcall] at hcall'
        cases hcall'
        exact ⟨ht, (ih hr hfit.2).mp ⟨hrs, hrest⟩⟩
    · rintro ⟨ht, hcounts⟩
      obtain ⟨d', hcall, hr⟩ := h.call hfit ht fuel
      obtain ⟨ha, hfl⟩ := (ih hr hfit.2).mpr hcounts
      refine ⟨?_, fun r d'' hcall' => ?_⟩
      · simp only [answers, hcall, ha, Levels.rets, Option.bind_eq_bind, Option.bind_some]
        rfl
      · rw [hcall] at hcall'
        cases hcall'
        refine ⟨?_, hfl⟩
        rintro rfl p
        rw [hr.queue p]
        rfl

/-- `Agrees` against the lists, by what is known of `TaskPriorityDeque`. -/
theorem agrees_iff_counts [Inhabited τ] (e : Word64) {cs : List (LevelCall TaskPriority τ)}
    (hfit : Fits (fun _ => []) cs) : Agrees e cs ↔ Counts e (fun _ => []) cs := by
  have hrun : ∀ fuel, TaskPriorityDeque.kNumTaskPriorities * kCapacity < fuel →
      ∃ d, TaskPriorityDeque.run fuel (TaskPriorityDeque.fresh (τ := τ)) cs =
        some (Levels.rets kCapacity kTaskPriorities (fun _ => []) cs, d) := fun fuel hf => by
    obtain ⟨d, _, hr, _⟩ := (TaskPriorityDeque.fresh_holds (τ := τ)).run hf cs
    exact ⟨d, hr⟩
  constructor
  · rintro ⟨rounds, h⟩
    obtain ⟨rs, d, ha, hd, hfl⟩ :=
      h (rounds + TaskPriorityDeque.kNumTaskPriorities * kCapacity + 1) (by omega)
    obtain ⟨d', hd'⟩ := hrun (rounds + TaskPriorityDeque.kNumTaskPriorities * kCapacity + 1) (by omega)
    rw [hd] at hd'
    cases hd'
    exact ((fresh_rel e).answers_iff hfit _).mp ⟨ha, hfl⟩
  · intro hcounts
    refine ⟨TaskPriorityDeque.kNumTaskPriorities * kCapacity + 1, fun fuel hf => ?_⟩
    obtain ⟨d, hd⟩ := hrun fuel (by omega)
    obtain ⟨f, rfl⟩ : ∃ f, fuel = f + 1 := ⟨fuel - 1, by omega⟩
    obtain ⟨ha, hfl⟩ := ((fresh_rel e).answers_iff hfit f).mpr hcounts
    exact ⟨_, d, ha, hd, hfl⟩

/-- **The two deques agree on a sequence that overflows no priority iff the count of pushes answers
every call of it rightly**: at `Size` it is the number of tasks queued, at a pop and at `Empty` it is
zero just when none is queued, and at `Flush` it is zero and none is queued. -/
theorem agrees_iff [Inhabited τ] (e : Word64) (cs : List (LevelCall TaskPriority τ))
    (hfit : Fits (fun _ => []) cs) : Agrees e cs ↔ Counts e (fun _ => []) cs :=
  agrees_iff_counts e hfit

/-- A push and the pop of its task. -/
theorem agrees_push_pop : Agrees 0 [.pushFront 7 .kDefault, .popFront] := by
  have hfit : Fits (fun _ => []) [.pushFront 7 .kDefault, .popFront] := ⟨by decide, by trivial⟩
  refine (agrees_iff 0 _ hfit).mpr ⟨trivial, ⟨fun h => ?_, fun h => ?_⟩, trivial⟩
  · exact absurd h (by decide)
  · exact absurd (h .kDefault) (by decide)

/-- After a push and the pop of its task, with a zero in `elems_`, `Size` still answers one. -/
theorem not_agrees_push_pop_size :
    Fits (fun _ => []) [.pushFront 7 .kDefault, .popFront, .size] ∧
    ¬ Agrees 0 [.pushFront 7 .kDefault, .popFront, .size] := by
  have hfit : Fits (fun _ => []) [.pushFront 7 .kDefault, .popFront, .size] :=
    ⟨by decide, by trivial⟩
  refine ⟨hfit, fun h => ?_⟩
  have hsize : 1 = 0 := ((agrees_iff_counts 0 hfit).mp h).2.2.1
  exact absurd hsize (by decide)

end TaskPriorityLockDeque

end AsyncLib
