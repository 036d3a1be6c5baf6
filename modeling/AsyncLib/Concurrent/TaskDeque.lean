import AsyncLib.Concurrent.TaskQueue
import AsyncLib.Lib.Deque
import AsyncLib.Lib.Ring

/-!
# `TaskDeque` and `CoroutineTaskDeque`, called by one thread

`async/concurrent/task_deque.h` and `async/coroutine/coroutine_task_deque.{h,cpp}`. Both are the
same ring of 1024 slots with two ends. The low 11 bits of `mFront` and `mBack` are rolling indices,
the upper 21 bits a modification counter; adding `kIncrement` moves the index up by one (its carry
runs into the counter) and counts, `dec` moves the index down by one and leaves the counter alone.

Called by one thread, a compare-exchange finds the state that was just loaded. `none` is a failed
assertion, or a loop with fuel that has not left yet.

* `At w p`: the index in the word `w` is that of position `p`.
* `Holds d l`: the deque `d` holds the list `l` (`AsyncLib.Deque`), the back first.
* `answers_eq_rets`: both classes answer every sequence of calls as a list of at most 1024 tasks.
-/

namespace AsyncLib

/-- The `enum` of slot states. -/
inductive SlotState where
  | kEmpty
  | kBusy
  | kReady
  deriving DecidableEq, Repr

/-- `Elem`: a slot of a double-ended queue. -/
structure Elem (τ : Type) where
  state : SlotState
  task : τ
  deriving DecidableEq, Repr

namespace TaskDeque

/-- `kCapacity` of both classes. -/
def kCapacity : Nat := 1024

instance : NeZero kCapacity := ⟨by decide⟩

/-- `kIncrement = (kCapacity << 1u) + 1`. -/
def kIncrement : Word := BitVec.ofNat 32 ((kCapacity <<< 1) + 1)

/-- `kMask = kCapacity - 1`. -/
def kMask : Word := BitVec.ofNat 32 (kCapacity - 1)

/-- `kMask2 = (kCapacity << 1u) - 1`. -/
def kMask2 : Word := BitVec.ofNat 32 ((kCapacity <<< 1) - 1)

theorem toNat_mask (w : Word) : (w &&& kMask).toNat = w.toNat % kCapacity := by
  rw [BitVec.toNat_and]
  exact Nat.and_two_pow_sub_one_eq_mod w.toNat 10

theorem toNat_mask2 (w : Word) : (w &&& kMask2).toNat = w.toNat % 2048 := by
  rw [BitVec.toNat_and]
  exact Nat.and_two_pow_sub_one_eq_mod w.toNat 11

/-- The index `w & kMask`. -/
def slot (w : Word) : Fin kCapacity :=
  ⟨(w &&& kMask).toNat, by rw [toNat_mask]; exact Nat.mod_lt _ (by decide)⟩

/-- `((w - 1) & kMask2) | (w & ~kMask2)`. -/
def dec (w : Word) : Word := ((w - 1) &&& kMask2) ||| (w &&& ~~~kMask2)

end TaskDeque

/-- The members of `TaskDeque`. A slot that was never filled holds `default`. -/
structure TaskDeque (τ : Type) where
  mFront : Word
  mBack : Word
  mArray : Fin TaskDeque.kCapacity → Elem τ

namespace TaskDeque

variable {τ : Type}

/-- The constructor. -/
def fresh [Inhabited τ] : TaskDeque τ := ⟨0, 0, fun _ => ⟨.kEmpty, default⟩⟩

/-- `CalculateSize`, with its assertion. -/
def calculateSize (front back : Word) : Option Nat :=
  let size := ((front &&& kMask2) - (back &&& kMask2)).toInt
  -- fix overflow
  let size := if size < 0 then size + 2 * kCapacity else size
  if size.toNat ≤ kCapacity + 1 then
    some (if size > kCapacity then kCapacity else size.toNat)
  else none

/-- The loop of `SizeOrNotEmpty<need_size_estimate>` from a loaded `front`, with its assertion. -/
def sizeOrNotEmptyLoop (needSizeEstimate : Bool) : Nat → TaskDeque τ → Word → Option Nat
  | 0, _, _ => none
  | fuel + 1, d, front =>
    let back := d.mBack
    let front1 := d.mFront
    if front ≠ front1 then sizeOrNotEmptyLoop needSizeEstimate fuel d front1
    else if needSizeEstimate then calculateSize front back
    else
      let maybeZero := (front ^^^ back) &&& kMask2
      (calculateSize front back).bind fun n =>
        if (n = 0) = (maybeZero = 0) then some maybeZero.toNat else none

/-- `Size`. -/
def size (fuel : Nat) (d : TaskDeque τ) : Option Nat := sizeOrNotEmptyLoop true fuel d d.mFront

/-- `Empty`. -/
def empty (fuel : Nat) (d : TaskDeque τ) : Option Bool :=
  (sizeOrNotEmptyLoop false fuel d d.mFront).map fun n => n == 0

/-- `PushFront`: the task, if the slot at the front is not empty. -/
def pushFront (d : TaskDeque τ) (task : τ) : Option τ × TaskDeque τ :=
  let front := d.mFront
  if (d.mArray (slot front)).state ≠ .kEmpty then (some task, d)
  else (none, { d with
    mFront := front + kIncrement
    mArray := Function.update d.mArray (slot front) ⟨.kReady, task⟩ })

/-- `PopFront`. `leave` is what a task becomes by being taken. -/
def popFront (leave : τ → τ) (d : TaskDeque τ) : Option τ × TaskDeque τ :=
  let front := d.mFront
  let e := d.mArray (slot (front - 1))
  if e.state ≠ .kReady then (none, d)
  else (some e.task, { d with
    mFront := dec front
    mArray := Function.update d.mArray (slot (front - 1)) ⟨.kEmpty, leave e.task⟩ })

/-- `PushBack`. -/
def pushBack (d : TaskDeque τ) (task : τ) : Option τ × TaskDeque τ :=
  let back := d.mBack
  if (d.mArray (slot (back - 1))).state ≠ .kEmpty then (some task, d)
  else (none, { d with
    mBack := dec back
    mArray := Function.update d.mArray (slot (back - 1)) ⟨.kReady, task⟩ })

/-- `PopBack`. -/
def popBack (leave : τ → τ) (fuel : Nat) (d : TaskDeque τ) : Option (Option τ × TaskDeque τ) :=
  (d.empty fuel).map fun isEmpty =>
    if isEmpty then (none, d)
    else
      let back := d.mBack
      let e := d.mArray (slot back)
      if e.state ≠ .kReady then (none, d)
      else (some e.task, { d with
        mBack := back + kIncrement
        mArray := Function.update d.mArray (slot back) ⟨.kEmpty, leave e.task⟩ })

/-- The loop of `PopBackHalf` over `mid`, from `n` tasks taken so far, the first one at `start`. -/
def popBackHalfLoop (leave : τ → τ) (back : Word) :
    Nat → TaskDeque τ → (mid : Word) → (n : Nat) → (start : Word) → (result : List τ) →
    Option (Nat × Word × List τ × TaskDeque τ)
  | 0, _, _, _, _, _ => none
  | fuel + 1, d, mid, n, start, result =>
    if 0 ≤ (mid - back).toInt then
      let e := d.mArray (slot mid)
      let d' := { d with mArray := Function.update d.mArray (slot mid) ⟨.kEmpty, leave e.task⟩ }
      if n = 0 then
        if e.state ≠ .kReady then popBackHalfLoop leave back fuel d (mid - 1) n start result
        else popBackHalfLoop leave back fuel d' (mid - 1) (n + 1) mid (result ++ [e.task])
      -- `assert(s == kReady)`
      else if e.state = .kReady then
        popBackHalfLoop leave back fuel d' (mid - 1) (n + 1) start (result ++ [e.task])
      else none
    else some (n, start, result, d)

/-- `PopBackHalf`: the number of tasks taken, and the tasks. -/
def popBackHalf (leave : τ → τ) (fuel : Nat) (d : TaskDeque τ) :
    Option (Nat × List τ × TaskDeque τ) := do
  if ← d.empty fuel then return (0, [], d)
  let back := d.mBack
  let size ← d.size fuel
  let mid := if size > 1 then back + BitVec.ofNat 32 ((size - 1) / 2) else back
  let (n, start, result, d') ← popBackHalfLoop leave back fuel d mid 0 0 []
  return (n, result, if n ≠ 0 then { d' with mBack := start + kIncrement } else d')

/-- `Flush`, with its assertion. -/
def flush (leave : τ → τ) : Nat → TaskDeque τ → Option (TaskDeque τ)
  | 0, _ => none
  | fuel + 1, d => do
    if ← d.empty (fuel + 1) then return d
    match d.popFront leave with
    | (some _, d') => flush leave fuel d'
    | (none, _) => none

/-- One call on a deque whose pops leave `leave task` in the slot. -/
def callWith (leave : τ → τ) (fuel : Nat) (d : TaskDeque τ) :
    DequeCall τ → Option (DequeRet τ × TaskDeque τ)
  | .pushFront task => let (r, d') := d.pushFront task; some (.task r, d')
  | .popFront => let (r, d') := d.popFront leave; some (.task r, d')
  | .pushBack task => let (r, d') := d.pushBack task; some (.task r, d')
  | .popBack => (d.popBack leave fuel).map fun (r, d') => (.task r, d')
  | .popBackHalf => (d.popBackHalf leave fuel).map fun (n, ts, d') => (.half n ts, d')
  | .size => (d.size fuel).map fun n => (.size n, d)
  | .empty => (d.empty fuel).map fun b => (.empty b, d)
  | .flush => (d.flush leave fuel).map fun d' => (.flushed, d')

/-- A call on a `TaskDeque`: `TaskFunction task = std::move(e->task)`. -/
def call [Inhabited τ] : Nat → TaskDeque τ → DequeCall τ → Option (DequeRet τ × TaskDeque τ) :=
  callWith fun _ => default

/-- A call on a `CoroutineTaskDeque`: `ScheduleOperation *task = e->task`. -/
def coroutineCall : Nat → TaskDeque τ → DequeCall τ → Option (DequeRet τ × TaskDeque τ) :=
  callWith id

/-- The answers of the calls `cs`, one after another, each loop run for at most `fuel` rounds. -/
def answers (f : Nat → TaskDeque τ → DequeCall τ → Option (DequeRet τ × TaskDeque τ))
    (fuel : Nat) : TaskDeque τ → List (DequeCall τ) → Option (List (DequeRet τ))
  | _, [] => some []
  | d, c :: cs => do
    let (r, d') ← f fuel d c
    let rs ← answers f fuel d' cs
    pure (r :: rs)

/-! ## Words and positions -/

/-- The word with the low 11 bits cleared. -/
theorem toNat_counter (w : Word) : (w &&& ~~~kMask2).toNat = 2 ^ 11 * (w.toNat / 2048) := by
  have h : w &&& ~~~kMask2 = (w >>> 11) <<< 11 := by
    ext i hi
    have hm : kMask2.getLsbD i = decide (i < 11) := by
      unfold kMask2
      rw [BitVec.getLsbD_ofNat, show (kCapacity <<< 1) - 1 = 2 ^ 11 - 1 by decide,
        Nat.testBit_two_pow_sub_one]
      simp [hi]
    simp only [BitVec.getElem_and, BitVec.getElem_not, BitVec.getElem_shiftLeft]
    rw [← BitVec.getLsbD_eq_getElem, ← BitVec.getLsbD_eq_getElem, hm]
    by_cases h11 : i < 11
    · simp [h11]
    · simp [h11, show 11 + (i - 11) = i by omega]
  rw [h, BitVec.toNat_shiftLeft, BitVec.toNat_ushiftRight, Nat.shiftLeft_eq,
    Nat.shiftRight_eq_div_pow]
  have := w.isLt
  omega

/-- `dec` moves the index down and keeps the counter. -/
theorem toNat_dec (w : Word) :
    (dec w).toNat = 2048 * (w.toNat / 2048) + (w.toNat + 2047) % 2048 := by
  have h1 : ((w - 1) &&& kMask2).toNat = (w.toNat + 2047) % 2048 := by
    have := w.isLt
    rw [toNat_mask2, BitVec.toNat_sub, show (1 : Word).toNat = 1 from rfl]
    omega
  unfold dec
  rw [BitVec.toNat_or, h1, toNat_counter, Nat.or_comm,
    ← Nat.two_pow_add_eq_or_of_lt (by omega : (w.toNat + 2047) % 2048 < 2 ^ 11)]

/-- The index in the word `w` is that of position `p`. -/
def At (w : Word) (p : Int) : Prop := (w.toNat : Int) % 2048 = p % 2048

theorem At.slot {w : Word} {p : Int} (h : At w p) : slot w = Ring.slot kCapacity p := by
  unfold At at h
  rw [Fin.ext_iff]
  show (w &&& kMask).toNat = (p % (kCapacity : Nat)).toNat
  rw [toNat_mask]
  unfold kCapacity
  omega

theorem At.inc {w : Word} {p : Int} (h : At w p) : At (w + kIncrement) (p + 1) := by
  have hk : kIncrement.toNat = 2049 := by decide
  unfold At at *
  rw [BitVec.toNat_add, hk]
  omega

theorem At.dec {w : Word} {p : Int} (h : At w p) : At (dec w) (p - 1) := by
  unfold At at *
  rw [toNat_dec]
  omega

theorem At.add {w : Word} {p : Int} (h : At w p) (k : Nat) : At (w + BitVec.ofNat 32 k) (p + k) := by
  unfold At at *
  rw [BitVec.toNat_add, BitVec.toNat_ofNat]
  omega

theorem At.sub_one {w : Word} {p : Int} (h : At w p) : At (w - 1) (p - 1) := by
  unfold At at *
  have := w.isLt
  rw [BitVec.toNat_sub, show (1 : Word).toNat = 1 from rfl]
  omega

/-- The difference of the two index fields. -/
theorem toInt_mask2_sub (front back : Word) : ((front &&& kMask2) - (back &&& kMask2)).toInt =
    (front.toNat % 2048 : Nat) - (back.toNat % 2048 : Nat) := by
  rw [BitVec.toInt_eq_toNat_cond, BitVec.toNat_sub, toNat_mask2, toNat_mask2]
  split <;> omega

/-- `CalculateSize` of two indices at most one lap and one apart. -/
theorem calculateSize_of_at {front back : Word} {b : Int} {n : Nat} (hf : At front (b + n))
    (hb : At back b) (hn : n ≤ kCapacity + 1) :
    calculateSize front back = some (min n kCapacity) := by
  unfold At at hf hb
  unfold kCapacity at hn
  simp only [calculateSize, toInt_mask2_sub]
  unfold kCapacity
  split_ifs <;> first | omega | (rw [Option.some.injEq]; omega)

/-- The assertion of `CalculateSize` fails on two indices further apart. -/
theorem calculateSize_none_of_at {front back : Word} {b : Int} {n : Nat} (hf : At front (b + n))
    (hb : At back b) (h1 : kCapacity + 1 < n) (h2 : n < 2 * kCapacity) :
    calculateSize front back = none := by
  unfold At at hf hb
  unfold kCapacity at h1 h2
  simp only [calculateSize, toInt_mask2_sub]
  unfold kCapacity
  split_ifs <;> first | omega | rfl

/-- The emptiness check on two indices less than two laps apart. -/
theorem maybeZero_of_at {front back : Word} {b : Int} {n : Nat} (hf : At front (b + n))
    (hb : At back b) (hn : n < 2048) : (front ^^^ back) &&& kMask2 = 0 ↔ n = 0 := by
  unfold At at hf hb
  have hx : (front ^^^ back) &&& kMask2 = (front &&& kMask2) ^^^ (back &&& kMask2) := by
    ext i
    simp [Bool.and_xor_distrib_right]
  rw [hx, show (0 : Word) = 0#32 from rfl, BitVec.xor_eq_zero_iff, ← BitVec.toNat_inj,
    toNat_mask2, toNat_mask2]
  omega

/-! ## The deque holds a list -/

/-- The deque `d` holds the list `l`, whose back is at position `b`. -/
structure Holds (d : TaskDeque τ) (b : Int) (l : List τ) : Prop where
  ring : Ring.Holds (fun x e => e = ⟨.kReady, x⟩) (fun e => e.state = .kEmpty) d.mArray b l
  front : At d.mFront (b + l.length)
  back : At d.mBack b

theorem fresh_holds [Inhabited τ] : Holds (fresh : TaskDeque τ) 0 [] where
  ring := Ring.holds_nil fun _ => rfl
  front := rfl
  back := rfl

variable {d : TaskDeque τ} {b : Int} {l : List τ}

theorem Holds.size (h : Holds d b l) (fuel : Nat) : d.size (fuel + 1) = some l.length := by
  have hle := h.ring.le
  simp only [TaskDeque.size, sizeOrNotEmptyLoop, ne_eq, not_true_eq_false, ↓reduceIte]
  rw [calculateSize_of_at h.front h.back (Nat.le_succ_of_le hle), Nat.min_eq_left hle]

theorem Holds.empty (h : Holds d b l) (fuel : Nat) : d.empty (fuel + 1) = some l.isEmpty := by
  have hle := h.ring.le
  have hz := maybeZero_of_at h.front h.back (Nat.lt_of_le_of_lt hle (by decide))
  simp only [TaskDeque.empty, sizeOrNotEmptyLoop, ne_eq, not_true_eq_false, ↓reduceIte,
    Bool.false_eq_true]
  rw [calculateSize_of_at h.front h.back (Nat.le_succ_of_le hle), Nat.min_eq_left hle]
  simp only [Option.bind_some, hz, ↓reduceIte, Option.map_some, Option.some.injEq]
  rw [Bool.eq_iff_iff, beq_iff_eq, List.isEmpty_iff, ← List.length_eq_zero_iff, ← hz]
  exact BitVec.toNat_inj (y := 0)

/-- The slot at the front is empty unless the ring is full. -/
theorem Holds.state_above (h : Holds d b l) :
    (d.mArray (TaskDeque.slot d.mFront)).state = .kEmpty ↔ l.length ≠ kCapacity := by
  rw [h.front.slot]
  refine ⟨fun he hl => ?_, h.ring.above_free⟩
  obtain ⟨x, hx⟩ := h.ring.above_full hl
  rw [hx] at he
  cases he

/-- The slot below the back is empty unless the ring is full. -/
theorem Holds.state_below (h : Holds d b l) :
    (d.mArray (TaskDeque.slot (d.mBack - 1))).state = .kEmpty ↔ l.length ≠ kCapacity := by
  rw [h.back.sub_one.slot]
  refine ⟨fun he hl => ?_, h.ring.below_free⟩
  obtain ⟨x, hx⟩ := h.ring.below_full hl
  rw [hx] at he
  cases he

theorem Holds.pushFront (h : Holds d b l) (task : τ) :
    Deque.ret kCapacity l (.pushFront task) = .task (d.pushFront task).1 ∧
    Holds (d.pushFront task).2 b (Deque.next kCapacity l (.pushFront task)) := by
  have hs := h.state_above
  by_cases hl : l.length = kCapacity
  · simp only [TaskDeque.pushFront, Deque.ret, Deque.next, hs, hl, ne_eq, not_true_eq_false,
      not_false_eq_true, ↓reduceIte, true_and]
    exact h
  · simp only [TaskDeque.pushFront, Deque.ret, Deque.next, hs, hl, ne_eq, not_true_eq_false,
      not_false_eq_true, ↓reduceIte, true_and]
    refine ⟨?_, ?_, h.back⟩
    · rw [h.front.slot]
      exact h.ring.pushTop (Nat.lt_of_le_of_ne h.ring.le hl) rfl
    · have := h.front.inc
      rwa [List.length_append, List.length_singleton, Int.natCast_add, ← Int.add_assoc]

theorem Holds.pushBack (h : Holds d b l) (task : τ) :
    Deque.ret kCapacity l (.pushBack task) = .task (d.pushBack task).1 ∧
    ∃ b', Holds (d.pushBack task).2 b' (Deque.next kCapacity l (.pushBack task)) := by
  have hs := h.state_below
  by_cases hl : l.length = kCapacity
  · simp only [TaskDeque.pushBack, Deque.ret, Deque.next, hs, hl, ne_eq, not_true_eq_false,
      not_false_eq_true, ↓reduceIte, true_and]
    exact ⟨b, h⟩
  · simp only [TaskDeque.pushBack, Deque.ret, Deque.next, hs, hl, ne_eq, not_true_eq_false,
      not_false_eq_true, ↓reduceIte, true_and]
    refine ⟨b - 1, ?_, ?_, h.back.dec⟩
    · rw [h.back.sub_one.slot]
      exact h.ring.pushBottom (Nat.lt_of_le_of_ne h.ring.le hl) rfl
    · have := h.front
      rwa [List.length_cons, show b - 1 + ((l.length + 1 : Nat) : Int) = b + l.length by omega]

/-- The top slot of an empty list is empty. -/
theorem Holds.state_top_nil (h : Holds d b ([] : List τ)) :
    (d.mArray (TaskDeque.slot (d.mFront - 1))).state = .kEmpty := by
  have hf := h.front
  simp only [List.length_nil, Int.natCast_zero, Int.add_zero] at hf
  rw [hf.sub_one.slot]
  exact h.ring.below_free (by simp [kCapacity])

theorem Holds.popFront (leave : τ → τ) (h : Holds d b l) :
    (d.popFront leave).1 = l.getLast? ∧ Holds (d.popFront leave).2 b l.dropLast := by
  rcases List.eq_nil_or_concat l with rfl | ⟨xs, x, rfl⟩
  · have hs := h.state_top_nil
    simp only [TaskDeque.popFront, hs, ne_eq, reduceCtorEq, not_false_eq_true, ↓reduceIte,
      List.getLast?_nil, List.dropLast_nil, true_and]
    exact h
  · rw [List.concat_eq_append] at h ⊢
    have hp : b + ((xs ++ [x]).length : Int) - 1 = b + xs.length := by
      rw [List.length_append, List.length_singleton]; omega
    have hslot := h.front.sub_one.slot
    rw [hp] at hslot
    have he : d.mArray (TaskDeque.slot (d.mFront - 1)) = ⟨.kReady, x⟩ := by
      have := h.ring.top (x := x) (by simp)
      rwa [hp, ← hslot] at this
    simp only [TaskDeque.popFront, he, ne_eq, not_true_eq_false, ↓reduceIte, List.getLast?_concat,
      List.dropLast_concat, true_and]
    refine ⟨?_, ?_, h.back⟩
    · rw [hslot]
      exact h.ring.popTop rfl
    · have := h.front.dec
      rwa [hp] at this

theorem Holds.popBack (leave : τ → τ) (h : Holds d b l) (fuel : Nat) :
    ∃ d' b', d.popBack leave (fuel + 1) = some (l.head?, d') ∧ Holds d' b' l.tail := by
  cases l with
  | nil => exact ⟨d, b, by simp [TaskDeque.popBack, h.empty fuel], h⟩
  | cons x xs =>
    have he : d.mArray (TaskDeque.slot d.mBack) = ⟨.kReady, x⟩ := by
      rw [h.back.slot]
      exact h.ring.bottom
    refine ⟨{ d with
      mBack := d.mBack + kIncrement
      mArray := Function.update d.mArray (TaskDeque.slot d.mBack) ⟨.kEmpty, leave x⟩ }, b + 1, ?_,
      ?_, ?_, h.back.inc⟩
    · simp only [TaskDeque.popBack, h.empty fuel, he, List.isEmpty_cons, Option.map_some, ne_eq,
        Bool.false_eq_true, not_true_eq_false, ↓reduceIte, List.head?_cons]
    · rw [h.back.slot]
      exact h.ring.popBottom rfl
    · have := h.front
      rwa [List.length_cons, show b + ((xs.length + 1 : Nat) : Int) = b + 1 + xs.length by omega]
        at this

/-- `static_cast<int>(mid - back)`, `k` slots above the one below the back. -/
theorem toInt_mid_sub (back : Word) {k : Nat} (hk : k ≤ kCapacity) :
    (back + BitVec.ofNat 32 k - 1 - back).toInt = k - 1 := by
  unfold kCapacity at hk
  have := back.isLt
  rw [BitVec.toInt_eq_toNat_cond, BitVec.toNat_sub, BitVec.toNat_sub, BitVec.toNat_add,
    BitVec.toNat_ofNat, show (1 : Word).toNat = 1 from rfl]
  split <;> omega

/-- The loop of `PopBackHalf` over `k` more slots, all of which are ready: it takes their tasks from
the top down and frees the slots. -/
theorem popBackHalfLoop_ready (leave : τ → τ) {back : Word} (hb : At back b) (k : Nat)
    (hk : k ≤ kCapacity) (hl : k ≤ l.length) {d : TaskDeque τ}
    (hr : ∀ i (h : i < k), d.mArray (Ring.slot kCapacity (b + i)) = ⟨.kReady, l[i]⟩)
    (n : Nat) (start : Word) (result : List τ) {fuel : Nat} (hfuel : k < fuel) :
    ∃ arr, popBackHalfLoop leave back fuel d (back + BitVec.ofNat 32 k - 1) n start result =
        some (n + k, if n = 0 ∧ 0 < k then back + BitVec.ofNat 32 k - 1 else start,
          result ++ (l.take k).reverse, { d with mArray := arr }) ∧
      (∀ p, b ≤ p → p < b + k → (arr (Ring.slot kCapacity p)).state = .kEmpty) ∧
      ∀ p, b + k ≤ p → p < b + kCapacity →
        arr (Ring.slot kCapacity p) = d.mArray (Ring.slot kCapacity p) := by
  obtain ⟨fuel, rfl⟩ : ∃ f, fuel = f + 1 := ⟨fuel - 1, by omega⟩
  have hmid := toInt_mid_sub back hk
  induction k generalizing d n start result fuel with
  | zero =>
    refine ⟨d.mArray, ?_, fun p h1 h2 => by omega, fun _ _ _ => rfl⟩
    simp only [popBackHalfLoop, hmid]
    simp
  | succ k ih =>
    obtain ⟨fuel, rfl⟩ : ∃ f, fuel = f + 1 := ⟨fuel - 1, by omega⟩
    have hslot : TaskDeque.slot (back + BitVec.ofNat 32 (k + 1) - 1) =
        Ring.slot kCapacity (b + k) := by
      rw [(hb.add (k + 1)).sub_one.slot, show b + ((k + 1 : Nat) : Int) - 1 = b + k by omega]
    have hnext : back + BitVec.ofNat 32 (k + 1) - 1 - 1 = back + BitVec.ofNat 32 k - 1 := by
      rw [BitVec.ofNat_add]
      simp [BitVec.sub_eq_add_neg, BitVec.add_assoc]
    have he := hr k (Nat.lt_succ_self k)
    -- the slots below are not touched by freeing this one
    have hr' : ∀ i (h : i < k), Function.update d.mArray (Ring.slot kCapacity (b + k))
        ⟨.kEmpty, leave l[k]⟩ (Ring.slot kCapacity (b + i)) = ⟨.kReady, l[i]⟩ := by
      intro i hi
      rw [Function.update_of_ne (Ring.slot_ne (by omega) (by omega) (by omega))]
      exact hr i (by omega)
    obtain ⟨arr, hrun, hfree, hrest⟩ := ih (by omega) (by omega)
      (d := ⟨d.mFront, d.mBack, Function.update d.mArray (Ring.slot kCapacity (b + k))
        ⟨.kEmpty, leave l[k]⟩⟩) hr' (n + 1)
      (if n = 0 then back + BitVec.ofNat 32 (k + 1) - 1 else start) (result ++ [l[k]]) fuel
      (by omega) (toInt_mid_sub back (by omega))
    refine ⟨arr, ?_, fun p h1 h2 => ?_, fun p h1 h2 => ?_⟩
    · have htake : result ++ (l.take (k + 1)).reverse =
          result ++ [l[k]] ++ (l.take k).reverse := by
        rw [List.take_succ_eq_append_getElem (by omega), List.reverse_append]
        simp
      rw [popBackHalfLoop]
      simp only [hmid, hslot, he, hnext, htake]
      rw [if_pos (by omega)]
      by_cases hn : n = 0
      · simp only [hn, ne_eq, not_true_eq_false, ↓reduceIte, Nat.zero_add] at hrun ⊢
        rw [hrun]
        simp [Nat.add_comm]
      · simp only [hn, ↓reduceIte] at hrun ⊢
        rw [hrun]
        simp [hn, Nat.add_comm, Nat.add_left_comm]
    · by_cases hp : p = b + k
      · rw [hp, hrest _ (by omega) (by omega)]
        simp
      · exact hfree p h1 (by omega)
    · rw [hrest p (by omega) h2]
      exact Function.update_of_ne (Ring.slot_ne (by omega) (by omega) (by omega)) _ _

theorem Holds.popBackHalf (leave : τ → τ) (h : Holds d b l) {fuel : Nat}
    (hfuel : kCapacity < fuel) :
    ∃ d' b', d.popBackHalf leave fuel = some ((l.length + 1) / 2,
        (l.take ((l.length + 1) / 2)).reverse, d') ∧
      Holds d' b' (l.drop ((l.length + 1) / 2)) := by
  obtain ⟨fuel, rfl⟩ : ∃ f, fuel = f + 1 := ⟨fuel - 1, by omega⟩
  have hle := h.ring.le
  cases hl : l with
  | nil =>
    subst hl
    refine ⟨d, b, ?_, by simpa using h⟩
    simp [TaskDeque.popBackHalf, h.empty fuel]
  | cons x xs =>
    rw [← hl]
    have hpos : 0 < l.length := by rw [hl]; exact Nat.succ_pos _
    -- `mid` is the top one of the lower half
    have hmid : (if l.length > 1 then d.mBack + BitVec.ofNat 32 ((l.length - 1) / 2) else d.mBack) =
        d.mBack + BitVec.ofNat 32 ((l.length + 1) / 2) - 1 := by
      rw [show (l.length + 1) / 2 = (l.length - 1) / 2 + 1 by omega, BitVec.ofNat_add,
        ← BitVec.add_assoc]
      split
      · exact (BitVec.add_sub_cancel _ _).symm
      · rw [show (l.length - 1) / 2 = 0 by omega]
        exact ((BitVec.add_sub_cancel _ _).trans (BitVec.add_zero _)).symm
    obtain ⟨arr, hrun, hfree, hrest⟩ := popBackHalfLoop_ready leave h.back ((l.length + 1) / 2)
      (by omega) (by omega) (d := d) (l := l) (fun i hi => h.ring.full i (by omega)) 0 0 []
      (show (l.length + 1) / 2 < fuel + 1 by omega)
    have hempty : l.isEmpty = false := by rw [hl]; rfl
    refine ⟨{ d with
      mBack := d.mBack + BitVec.ofNat 32 ((l.length + 1) / 2) - 1 + kIncrement
      mArray := arr }, b + ((l.length + 1) / 2 : Nat), ?_,
      h.ring.dropBottom (by omega) hfree hrest, ?_, ?_⟩
    · have hne : (l.length + 1) / 2 ≠ 0 := by omega
      simp only [TaskDeque.popBackHalf, h.empty fuel, h.size fuel, hempty, hmid, hrun,
        Option.bind_eq_bind, Option.bind_some, Bool.false_eq_true, ↓reduceIte, Nat.zero_add,
        true_and, List.nil_append, hne, ne_eq, not_false_eq_true, Nat.pos_of_ne_zero hne]
      rfl
    · have := h.front
      rwa [List.length_drop,
        show b + (((l.length + 1) / 2 : Nat) : Int) + ((l.length - (l.length + 1) / 2 : Nat) : Int) =
          b + l.length by omega]
    · have := (h.back.add ((l.length + 1) / 2)).sub_one.inc
      rwa [Int.sub_add_cancel] at this

theorem Holds.flush (leave : τ → τ) {fuel : Nat} (hfuel : l.length < fuel) {d : TaskDeque τ}
    (h : Holds d b l) : ∃ d', d.flush leave fuel = some d' ∧ Holds d' b [] := by
  obtain ⟨fuel, rfl⟩ : ∃ f, fuel = f + 1 := ⟨fuel - 1, by omega⟩
  induction fuel generalizing d l with
  | zero =>
    have hl : l = [] := List.length_eq_zero_iff.mp (by omega)
    subst hl
    refine ⟨d, ?_, h⟩
    simp [TaskDeque.flush, h.empty 0]
  | succ fuel ih =>
    rcases List.eq_nil_or_concat l with rfl | ⟨xs, x, rfl⟩
    · refine ⟨d, ?_, h⟩
      rw [TaskDeque.flush, h.empty (fuel + 1)]
      rfl
    · rw [List.concat_eq_append] at h hfuel
      obtain ⟨hret, hnext⟩ := h.popFront leave
      rw [List.dropLast_concat] at hnext
      rw [List.getLast?_concat] at hret
      obtain ⟨d', hd', hh⟩ := ih hnext (by simpa using hfuel)
      refine ⟨d', ?_, hh⟩
      have hne : (xs ++ [x]).isEmpty = false := by simp
      rw [TaskDeque.flush, h.empty (fuel + 1), hne]
      simp only [Option.bind_eq_bind, Option.bind_some, Bool.false_eq_true, ↓reduceIte]
      rw [show d.popFront leave = (some x, (d.popFront leave).2) by rw [← hret]]
      exact hd'

/-! ## A sequence of calls -/

/-- A call is answered as on the list. -/
theorem Holds.call (leave : τ → τ) (h : Holds d b l) {fuel : Nat} (hfuel : kCapacity < fuel)
    (c : DequeCall τ) :
    ∃ d' b', callWith leave fuel d c = some (Deque.ret kCapacity l c, d') ∧
      Holds d' b' (Deque.next kCapacity l c) := by
  obtain ⟨f, hf⟩ : ∃ f, fuel = f + 1 := ⟨fuel - 1, by omega⟩
  cases c with
  | pushFront task =>
    obtain ⟨hr, hn⟩ := h.pushFront task
    exact ⟨_, b, by rw [hr]; rfl, hn⟩
  | popFront =>
    obtain ⟨hr, hn⟩ := h.popFront leave
    exact ⟨_, b, by rw [Deque.ret, ← hr]; rfl, hn⟩
  | pushBack task =>
    obtain ⟨hr, b', hn⟩ := h.pushBack task
    exact ⟨_, b', by rw [hr]; rfl, hn⟩
  | popBack =>
    obtain ⟨d', b', hr, hn⟩ := h.popBack leave f
    exact ⟨d', b', by rw [callWith, hf, hr]; rfl, hn⟩
  | popBackHalf =>
    obtain ⟨d', b', hr, hn⟩ := h.popBackHalf leave hfuel
    exact ⟨d', b', by rw [callWith, hr]; rfl, hn⟩
  | size => exact ⟨d, b, by rw [callWith, hf, h.size f]; rfl, h⟩
  | empty => exact ⟨d, b, by rw [callWith, hf, h.empty f]; rfl, h⟩
  | flush =>
    obtain ⟨d', hr, hn⟩ := h.flush leave (Nat.lt_of_le_of_lt h.ring.le hfuel)
    exact ⟨d', b, by rw [callWith, hr]; rfl, hn⟩

theorem Holds.answers (leave : τ → τ) {fuel : Nat} (hfuel : kCapacity < fuel) (h : Holds d b l)
    (cs : List (DequeCall τ)) :
    answers (callWith leave) fuel d cs = some (Deque.rets kCapacity l cs) := by
  induction cs generalizing d b l with
  | nil => rfl
  | cons c cs ih =>
    obtain ⟨d', b', hr, hn⟩ := h.call leave hfuel c
    simp only [TaskDeque.answers, hr, ih hn, Deque.rets, Option.bind_eq_bind, Option.bind_some]
    rfl

/-- **Both deques behave as a list of at most 1024 tasks with two ends**, on every sequence of
calls: every loop returns within 1025 rounds, no assertion fails, and the answers are those of the
list. -/
theorem answers_eq_rets [Inhabited τ] (cs : List (DequeCall τ)) (fuel : Nat) :
    TaskDeque.answers call (kCapacity + 1 + fuel) fresh cs = some (Deque.rets kCapacity [] cs) ∧
    TaskDeque.answers coroutineCall (kCapacity + 1 + fuel) fresh cs =
      some (Deque.rets kCapacity [] cs) := by
  have hfuel : kCapacity < kCapacity + 1 + fuel := by omega
  exact ⟨fresh_holds.answers _ hfuel cs, fresh_holds.answers _ hfuel cs⟩

end TaskDeque

end AsyncLib
