import AsyncLib.Concurrent.PointerState
import AsyncLib.Concurrent.TaskDeque

/-!
# `TaskPriorityDeque`, called by one thread

`async/concurrent/task_priority_queue.h`. Four rings of 1024 slots in one array, one for each
priority, whose indices are packed into the words `front_` and `back_` (`AsyncLib.PointerState`).
Called by one thread, a compare-exchange finds the state that was just loaded. `none` is a failed
assertion, or a loop with fuel that has not left yet.

* `Level d p b l`: the ring of priority `p` holds the list `l`, whose back is at position `b`.
* `Same d d' p`: the slots and the two packed indices of priority `p` are the same.
* `run_eq_rets`: every sequence of calls is answered as by four lists of at most 1024 tasks, no
  assertion fails, and a call leaves the levels it does not work on as they are.
-/

namespace AsyncLib

/-- The members of `TaskPriorityDeque`. A slot that was never filled, and a task that was moved
from, hold `default`. -/
structure TaskPriorityDeque (τ : Type) where
  front_ : Word64
  back_ : Word64
  array_ : Fin (TaskPriorityDeque.kCapacity * TaskPriorityDeque.kNumTaskPriorities) → Elem τ

namespace TaskPriorityDeque

variable {τ : Type}

/-- The slot of the array at offset `i` of priority `p`. -/
def cell (p : TaskPriority) (i : Fin kCapacity) : Fin (kCapacity * kNumTaskPriorities) :=
  ⟨p.toNat * kCapacity + i, by
    have := p.toNat_lt
    have := i.isLt
    unfold kCapacity kNumTaskPriorities kCounterBits at *
    omega⟩

/-- `elem`, with its assertion on the offset. -/
def elem (p : TaskPriority) (offset : Word64) : Option (Fin (kCapacity * kNumTaskPriorities)) :=
  if h : offset.toNat < kCapacity then some (cell p ⟨offset.toNat, h⟩) else none

/-- The constructor. -/
def fresh [Inhabited τ] : TaskPriorityDeque τ := ⟨0, 0, fun _ => ⟨.kEmpty, default⟩⟩

/-- The part of `CalculateSize` for one priority, with its assertion. -/
def queueSize (front back : Word64) (p : TaskPriority) : Option Nat :=
  let size := ((indexExt front p - indexExt back p).setWidth 32).toInt
  -- fix overflow
  let size := if size < 0 then size + 2 * kCapacity else size
  if size ≤ kCapacity + 1 then some (if size > kCapacity then kCapacity else size.toNat) else none

/-- `CalculateSize`, with its assertions. -/
def calculateSize (front back : Word64) : Option Nat := do
  let size0 ← queueSize front back .kCritical
  let size1 ← queueSize front back .kHigh
  let size2 ← queueSize front back .kDefault
  let size3 ← queueSize front back .kLow
  let size := size0 + size1 + size2 + size3
  if size ≤ kNumTaskPriorities * kCapacity then some size else none

/-- The loop of `SizeOrNotEmpty<need_size_estimate>` from a loaded `front`, with its assertion. -/
def sizeOrNotEmptyLoop (needSizeEstimate : Bool) : Nat → TaskPriorityDeque τ → Word64 → Option Nat
  | 0, _, _ => none
  | fuel + 1, d, front =>
    let back := d.back_
    let front1 := d.front_
    if front ≠ front1 then sizeOrNotEmptyLoop needSizeEstimate fuel d front1
    else if needSizeEstimate then calculateSize front back
    else
      let maybeZero := (front ^^^ back) &&& kIndicesMask
      (calculateSize front back).bind fun n =>
        if (n = 0) = (maybeZero = 0) then some maybeZero.toNat else none

/-- `Size`. -/
def size (fuel : Nat) (d : TaskPriorityDeque τ) : Option Nat :=
  sizeOrNotEmptyLoop true fuel d d.front_

/-- `Empty`. -/
def empty (fuel : Nat) (d : TaskPriorityDeque τ) : Option Bool :=
  (sizeOrNotEmptyLoop false fuel d d.front_).map fun n => n == 0

/-- `PushFront`: the task, if the slot at the front of `p` is not empty. -/
def pushFront (d : TaskPriorityDeque τ) (task : τ) (p : TaskPriority) :
    Option (Option τ × TaskPriorityDeque τ) := do
  let e ← elem p (index d.front_ p)
  if (d.array_ e).state ≠ .kEmpty then return (some task, d)
  let front ← inc d.front_ p
  return (none, ⟨front, d.back_, Function.update d.array_ e ⟨.kReady, task⟩⟩)

/-- `PushBack`. -/
def pushBack (d : TaskPriorityDeque τ) (task : τ) (p : TaskPriority) :
    Option (Option τ × TaskPriorityDeque τ) := do
  let index := indexExt d.back_ p
  let e ← elem p ((index - 1) &&& kIndexMask)
  if (d.array_ e).state ≠ .kEmpty then return (some task, d)
  let back ← withIndexExt d.back_ ((index - 1) &&& kIndexMaskExt) p
  return (none, ⟨d.front_, back, Function.update d.array_ e ⟨.kReady, task⟩⟩)

/-- The loop of `PopFront` over the priorities. -/
def popFrontLoop [Inhabited τ] (d : TaskPriorityDeque τ) :
    List TaskPriority → Option (Option τ × TaskPriorityDeque τ)
  | [] => some (none, d)
  | p :: ps => do
    let index := indexExt d.front_ p
    let e ← elem p ((index - 1) &&& kIndexMask)
    if (d.array_ e).state ≠ .kReady then popFrontLoop d ps
    else
      let front ← withIndexExt d.front_ ((index - 1) &&& kIndexMaskExt) p
      return (some (d.array_ e).task, ⟨front, d.back_, Function.update d.array_ e ⟨.kEmpty, default⟩⟩)

/-- `PopFront`. -/
def popFront [Inhabited τ] (d : TaskPriorityDeque τ) : Option (Option τ × TaskPriorityDeque τ) :=
  popFrontLoop d kTaskPriorities

/-- The loop of `PopBack` over the priorities. -/
def popBackLoop [Inhabited τ] (d : TaskPriorityDeque τ) :
    List TaskPriority → Option (Option τ × TaskPriorityDeque τ)
  | [] => some (none, d)
  | p :: ps => do
    let e ← elem p (index d.back_ p)
    if (d.array_ e).state ≠ .kReady then popBackLoop d ps
    else
      let back ← inc d.back_ p
      return (some (d.array_ e).task, ⟨d.front_, back, Function.update d.array_ e ⟨.kEmpty, default⟩⟩)

/-- `PopBack`. -/
def popBack [Inhabited τ] (fuel : Nat) (d : TaskPriorityDeque τ) :
    Option (Option τ × TaskPriorityDeque τ) := do
  if ← d.empty fuel then return (none, d)
  popBackLoop d kTaskPriorities

/-- `Flush`, with its assertion. -/
def flush [Inhabited τ] : Nat → TaskPriorityDeque τ → Option (TaskPriorityDeque τ)
  | 0, _ => none
  | fuel + 1, d => do
    if ← d.empty (fuel + 1) then return d
    match ← d.popFront with
    | (some _, d') => flush fuel d'
    | (none, _) => none

/-- One call. A push without a priority is one with `kDefault`. -/
def call [Inhabited τ] (fuel : Nat) (d : TaskPriorityDeque τ) :
    LevelCall TaskPriority τ → Option (DequeRet τ × TaskPriorityDeque τ)
  | .pushFront task p => (d.pushFront task p).map fun (r, d') => (.task r, d')
  | .popFront => d.popFront.map fun (r, d') => (.task r, d')
  | .pushBack task p => (d.pushBack task p).map fun (r, d') => (.task r, d')
  | .popBack => (d.popBack fuel).map fun (r, d') => (.task r, d')
  | .size => (d.size fuel).map fun n => (.size n, d)
  | .empty => (d.empty fuel).map fun b => (.empty b, d)
  | .flush => (d.flush fuel).map fun d' => (.flushed, d')

/-- The answers of the calls `cs`, one after another, and the deque after them. -/
def run [Inhabited τ] (fuel : Nat) : TaskPriorityDeque τ → List (LevelCall TaskPriority τ) →
    Option (List (DequeRet τ) × TaskPriorityDeque τ)
  | d, [] => some ([], d)
  | d, c :: cs => do
    let (r, d') ← d.call fuel c
    let (rs, d'') ← run fuel d' cs
    return (r :: rs, d'')

/-! ## Words and positions -/

/-- The index of priority `p` in the word `w` is that of position `q`. -/
def At (w : Word64) (p : TaskPriority) (q : Int) : Prop := ((indexExt w p).toNat : Int) = q % 2048

theorem at_zero (p : TaskPriority) : At 0 p 0 := by simp [At, indexExt]

theorem cell_inj {p p' : TaskPriority} {i i' : Fin kCapacity} (h : cell p i = cell p' i') :
    p = p' ∧ i = i' := by
  have hv : p.toNat * kCapacity + i = p'.toNat * kCapacity + i' := congrArg Fin.val h
  have h1 := i.isLt
  have h2 := i'.isLt
  unfold kCapacity kCounterBits at hv h1 h2
  refine ⟨TaskPriority.toNat_inj (by omega), Fin.ext (by omega)⟩

theorem kCapacity_eq : kCapacity = 1024 := rfl

/-- The slot at an index. -/
theorem At.elem {w : Word64} {p : TaskPriority} {q : Int} (h : At w p q) :
    elem p (index w p) = some (cell p (Ring.slot kCapacity q)) := by
  have hi := toNat_index w p
  unfold At at h
  have hlt : (index w p).toNat < kCapacity := by rw [kCapacity_eq]; omega
  rw [TaskPriorityDeque.elem, dif_pos hlt]
  congr 2
  rw [Fin.ext_iff]
  show (index w p).toNat = (q % (1024 : Nat)).toNat
  omega

theorem At.toNat_sub_one {w : Word64} {p : TaskPriority} {q : Int} (h : At w p q) :
    ((indexExt w p - 1).toNat : Int) % 2048 = (q - 1) % 2048 := by
  have hlt := toNat_indexExt_lt w p
  unfold At at h
  rw [BitVec.toNat_sub, show (1 : Word64).toNat = 1 from rfl]
  omega

/-- The slot below an index. -/
theorem At.elem_sub_one {w : Word64} {p : TaskPriority} {q : Int} (h : At w p q) :
    TaskPriorityDeque.elem p ((indexExt w p - 1) &&& kIndexMask) =
      some (cell p (Ring.slot kCapacity (q - 1))) := by
  have hm := toNat_and_kIndexMask (indexExt w p - 1)
  have hs := h.toNat_sub_one
  have hlt : ((indexExt w p - 1) &&& kIndexMask).toNat < kCapacity := by
    rw [kCapacity_eq]; omega
  rw [TaskPriorityDeque.elem, dif_pos hlt]
  congr 2
  rw [Fin.ext_iff]
  show ((indexExt w p - 1) &&& kIndexMask).toNat = ((q - 1) % (1024 : Nat)).toNat
  omega

/-- Moving an index down. -/
theorem At.dec {w : Word64} {p : TaskPriority} {q : Int} (h : At w p q) :
    ∃ w', withIndexExt w ((indexExt w p - 1) &&& kIndexMaskExt) p = some w' ∧ At w' p (q - 1) ∧
      ∀ p', p' ≠ p → indexExt w' p' = indexExt w p' := by
  have hm := toNat_and_kIndexMaskExt (indexExt w p - 1)
  have hs := h.toNat_sub_one
  obtain ⟨w', hw, hp, hrest⟩ := withIndexExt_spec w
    (show ((indexExt w p - 1) &&& kIndexMaskExt).toNat < 2048 by omega) p
  refine ⟨w', hw, ?_, hrest⟩
  unfold At
  rw [hp]
  omega

/-- Moving an index up. -/
theorem At.inc {w : Word64} {p : TaskPriority} {q : Int} (h : At w p q) :
    ∃ w', TaskPriorityDeque.inc w p = some w' ∧ At w' p (q + 1) ∧
      ∀ p', p' ≠ p → indexExt w' p' = indexExt w p' := by
  obtain ⟨hp, hrest⟩ := indexExt_incWord w p
  refine ⟨_, inc_eq w p, ?_, hrest⟩
  have hlt := toNat_indexExt_lt w p
  unfold At at *
  rw [hp, toNat_and_kIndexMaskExt, BitVec.toNat_add, show (1 : Word64).toNat = 1 from rfl]
  omega

/-! ## The levels -/

/-- The slots of priority `p`. -/
def slots (d : TaskPriorityDeque τ) (p : TaskPriority) : Fin kCapacity → Elem τ :=
  fun i => d.array_ (cell p i)

/-- The ring of priority `p` holds the list `l`, whose back is at position `b`. -/
structure Level (d : TaskPriorityDeque τ) (p : TaskPriority) (b : Int) (l : List τ) : Prop where
  ring : Ring.Holds (fun x e => e = ⟨.kReady, x⟩) (fun e => e.state = .kEmpty) (d.slots p) b l
  front : At d.front_ p (b + l.length)
  back : At d.back_ p b

/-- The slots and the packed indices of priority `p` are the same in `d` and `d'`. -/
structure Same (d d' : TaskPriorityDeque τ) (p : TaskPriority) : Prop where
  slots : d'.slots p = d.slots p
  front : indexExt d'.front_ p = indexExt d.front_ p
  back : indexExt d'.back_ p = indexExt d.back_ p

variable {d d' : TaskPriorityDeque τ} {p : TaskPriority} {b : Int} {l : List τ}

theorem Same.refl (d : TaskPriorityDeque τ) (p : TaskPriority) : Same d d p := ⟨rfl, rfl, rfl⟩

theorem Same.trans {d'' : TaskPriorityDeque τ} (h : Same d d' p) (h' : Same d' d'' p) :
    Same d d'' p :=
  ⟨h'.slots.trans h.slots, h'.front.trans h.front, h'.back.trans h.back⟩

theorem Level.of_same (h : Level d p b l) (hs : Same d d' p) : Level d' p b l := by
  refine ⟨by rw [hs.slots]; exact h.ring, ?_, ?_⟩
  · have := h.front
    unfold At at *
    rwa [hs.front]
  · have := h.back
    unfold At at *
    rwa [hs.back]

theorem slots_update (arr : Fin (kCapacity * kNumTaskPriorities) → Elem τ) (front back : Word64)
    (i : Fin kCapacity) (e : Elem τ) :
    (⟨front, back, Function.update arr (cell p i) e⟩ : TaskPriorityDeque τ).slots p =
      Function.update (fun j => arr (cell p j)) i e := by
  funext j
  by_cases hj : j = i
  · subst hj
    simp [slots]
  · have hne : cell p j ≠ cell p i := fun h => hj (cell_inj h).2
    simp [slots, hne, hj]

theorem slots_update_of_ne (arr : Fin (kCapacity * kNumTaskPriorities) → Elem τ)
    (front back : Word64) {p p' : TaskPriority} (hne : p' ≠ p) (i : Fin kCapacity) (e : Elem τ) :
    (⟨front, back, Function.update arr (cell p i) e⟩ : TaskPriorityDeque τ).slots p' =
      fun j => arr (cell p' j) := by
  funext j
  have h : cell p' j ≠ cell p i := fun h => hne (cell_inj h).1
  simp [slots, h]

theorem Level.pushFront (h : Level d p b l) (task : τ) :
    ∃ d', d.pushFront task p = some (if l.length = kCapacity then some task else none, d') ∧
      Level d' p b (if l.length = kCapacity then l else l ++ [task]) ∧
      ∀ p', p' ≠ p → Same d d' p' := by
  by_cases hl : l.length = kCapacity
  · obtain ⟨x, hx⟩ := h.ring.above_full hl
    have hs : (d.array_ (cell p (Ring.slot kCapacity (b + l.length)))).state = .kReady :=
      congrArg Elem.state hx
    refine ⟨d, ?_, by simpa only [hl, ↓reduceIte] using h, fun p' _ => Same.refl d p'⟩
    rw [TaskPriorityDeque.pushFront, h.front.elem, if_pos hl]
    simp [hs]
  · have hs : (d.array_ (cell p (Ring.slot kCapacity (b + l.length)))).state = .kEmpty :=
      h.ring.above_free hl
    obtain ⟨w', hw, hat, hrest⟩ := h.front.inc
    refine ⟨⟨w', d.back_, Function.update d.array_ (cell p (Ring.slot kCapacity (b + l.length)))
      ⟨.kReady, task⟩⟩, ?_, ?_, fun p' hne => ⟨slots_update_of_ne _ _ _ hne _ _, hrest p' hne, rfl⟩⟩
    · rw [TaskPriorityDeque.pushFront, h.front.elem, if_neg hl]
      simp [hs, hw]
    · simp only [hl, ↓reduceIte]
      refine ⟨?_, ?_, h.back⟩
      · rw [slots_update]
        exact h.ring.pushTop (Nat.lt_of_le_of_ne h.ring.le hl) rfl
      · rwa [List.length_append, List.length_singleton, Int.natCast_add, ← Int.add_assoc]

theorem Level.pushBack (h : Level d p b l) (task : τ) :
    ∃ d' b', d.pushBack task p = some (if l.length = kCapacity then some task else none, d') ∧
      Level d' p b' (if l.length = kCapacity then l else task :: l) ∧
      ∀ p', p' ≠ p → Same d d' p' := by
  by_cases hl : l.length = kCapacity
  · obtain ⟨x, hx⟩ := h.ring.below_full hl
    have hs : (d.array_ (cell p (Ring.slot kCapacity (b - 1)))).state = .kReady :=
      congrArg Elem.state hx
    refine ⟨d, b, ?_, by simpa only [hl, ↓reduceIte] using h, fun p' _ => Same.refl d p'⟩
    rw [TaskPriorityDeque.pushBack, h.back.elem_sub_one, if_pos hl]
    simp [hs]
  · have hs : (d.array_ (cell p (Ring.slot kCapacity (b - 1)))).state = .kEmpty :=
      h.ring.below_free hl
    obtain ⟨w', hw, hat, hrest⟩ := h.back.dec
    refine ⟨⟨d.front_, w', Function.update d.array_ (cell p (Ring.slot kCapacity (b - 1)))
      ⟨.kReady, task⟩⟩, b - 1, ?_, ?_,
      fun p' hne => ⟨slots_update_of_ne _ _ _ hne _ _, rfl, hrest p' hne⟩⟩
    · simp only [TaskPriorityDeque.pushBack, h.back.elem_sub_one, hs, hw, hl, Option.bind_eq_bind,
        Option.bind_some, ne_eq, not_true_eq_false, ↓reduceIte]
      rfl
    · simp only [hl, ↓reduceIte]
      refine ⟨?_, ?_, hat⟩
      · rw [slots_update]
        exact h.ring.pushBottom (Nat.lt_of_le_of_ne h.ring.le hl) rfl
      · have := h.front
        rwa [List.length_cons, show b - 1 + ((l.length + 1 : Nat) : Int) = b + l.length by omega]

/-- All four rings hold their lists. -/
def Holds (d : TaskPriorityDeque τ) (bs : TaskPriority → Int) (ls : TaskPriority → List τ) : Prop :=
  ∀ p, Level d p (bs p) (ls p)

theorem fresh_holds [Inhabited τ] : Holds (fresh : TaskPriorityDeque τ) (fun _ => 0) fun _ => [] :=
  fun p => ⟨Ring.holds_nil fun _ => rfl, at_zero p, at_zero p⟩

variable {bs : TaskPriority → Int} {ls : TaskPriority → List τ}

/-- One level changed. -/
theorem Holds.update (h : Holds d bs ls) (hp : Level d' p b l)
    (hrest : ∀ p', p' ≠ p → Same d d' p') :
    Holds d' (Function.update bs p b) (Function.update ls p l) := by
  intro p'
  by_cases hne : p' = p
  · subst hne
    simpa only [Function.update_self] using hp
  · simp only [Function.update_of_ne hne]
    exact (h p').of_same (hrest p' hne)

theorem top_cons_nil {ps : List TaskPriority} (hl : ls p = []) :
    Levels.top (p :: ps) ls = Levels.top ps ls := by
  simp [Levels.top, hl]

theorem top_cons_of_ne_nil {ps : List TaskPriority} (hl : ls p ≠ []) :
    Levels.top (p :: ps) ls = some p := by
  simp [Levels.top, hl]

theorem Holds.popFrontLoop [Inhabited τ] (h : Holds d bs ls) (ps : List TaskPriority) :
    ∃ d', d.popFrontLoop ps = some ((Levels.top ps ls).bind fun p => (ls p).getLast?, d') ∧
      (∀ p, Levels.top ps ls = some p → Level d' p (bs p) (ls p).dropLast) ∧
      ∀ p, Levels.top ps ls ≠ some p → Same d d' p := by
  induction ps with
  | nil => exact ⟨d, rfl, fun p hp => absurd hp (by simp [Levels.top]), fun p _ => Same.refl d p⟩
  | cons p ps ih =>
    have hp := h p
    rcases List.eq_nil_or_concat (ls p) with hl | ⟨xs, x, hl⟩
    · -- the ring of `p` is empty
      have hs : (d.array_ (cell p (Ring.slot kCapacity (bs p - 1)))).state = .kEmpty := by
        refine hp.ring.below_free ?_
        rw [hl, List.length_nil]
        decide
      have helem := hp.front.elem_sub_one
      rw [hl, List.length_nil, Int.natCast_zero, Int.add_zero] at helem
      obtain ⟨d', hd', h1, h2⟩ := ih
      rw [top_cons_nil hl]
      refine ⟨d', ?_, h1, h2⟩
      rw [TaskPriorityDeque.popFrontLoop, helem]
      simpa [hs] using hd'
    · rw [List.concat_eq_append] at hl
      have hpos : bs p + ((ls p).length : Int) - 1 = bs p + xs.length := by
        rw [hl, List.length_append, List.length_singleton]; omega
      have he : d.array_ (cell p (Ring.slot kCapacity (bs p + xs.length))) = ⟨.kReady, x⟩ := by
        have := hp.ring.top (x := x) (by rw [hl]; simp)
        rwa [hpos] at this
      obtain ⟨w', hw, hat, hrest⟩ := hp.front.dec
      have helem := hp.front.elem_sub_one
      rw [hpos] at helem hat
      rw [top_cons_of_ne_nil (by rw [hl]; simp)]
      refine ⟨⟨w', d.back_, Function.update d.array_ (cell p (Ring.slot kCapacity
        (bs p + xs.length))) ⟨.kEmpty, default⟩⟩, ?_, ?_, ?_⟩
      · simp only [TaskPriorityDeque.popFrontLoop, helem, he, hw, hl, Option.bind_eq_bind,
          Option.bind_some, ne_eq, not_true_eq_false, ↓reduceIte, List.getLast?_concat]
        rfl
      · intro p' hp'
        cases hp'
        have hring := hp.ring
        rw [hl] at hring ⊢
        rw [List.dropLast_concat]
        refine ⟨?_, hat, hp.back⟩
        rw [slots_update]
        exact hring.popTop rfl
      · intro p' hne
        have hne' : p' ≠ p := fun he => hne (by rw [he])
        exact ⟨slots_update_of_ne _ _ _ hne' _ _, hrest p' hne', rfl⟩

theorem Holds.popBackLoop [Inhabited τ] (h : Holds d bs ls) (ps : List TaskPriority) :
    ∃ d', d.popBackLoop ps = some ((Levels.top ps ls).bind fun p => (ls p).head?, d') ∧
      (∀ p, Levels.top ps ls = some p → Level d' p (bs p + 1) (ls p).tail) ∧
      ∀ p, Levels.top ps ls ≠ some p → Same d d' p := by
  induction ps with
  | nil => exact ⟨d, rfl, fun p hp => absurd hp (by simp [Levels.top]), fun p _ => Same.refl d p⟩
  | cons p ps ih =>
    have hp := h p
    cases hl : ls p with
    | nil =>
      have hs : (d.array_ (cell p (Ring.slot kCapacity (bs p)))).state = .kEmpty := by
        have := hp.ring.above_free (by rw [hl, List.length_nil]; decide)
        rwa [hl, List.length_nil, Int.natCast_zero, Int.add_zero] at this
      obtain ⟨d', hd', h1, h2⟩ := ih
      rw [top_cons_nil hl]
      refine ⟨d', ?_, h1, h2⟩
      rw [TaskPriorityDeque.popBackLoop, hp.back.elem]
      simpa [hs] using hd'
    | cons x xs =>
      have hring := hp.ring
      have hfront := hp.front
      rw [hl] at hring hfront
      have he : d.array_ (cell p (Ring.slot kCapacity (bs p))) = ⟨.kReady, x⟩ := hring.bottom
      obtain ⟨w', hw, hat, hrest⟩ := hp.back.inc
      rw [top_cons_of_ne_nil (by rw [hl]; simp)]
      refine ⟨⟨d.front_, w', Function.update d.array_ (cell p (Ring.slot kCapacity (bs p)))
        ⟨.kEmpty, default⟩⟩, ?_, ?_, ?_⟩
      · rw [TaskPriorityDeque.popBackLoop, hp.back.elem]
        simp [he, hw, hl]
      · intro p' hp'
        cases hp'
        rw [hl, List.tail_cons]
        refine ⟨?_, ?_, hat⟩
        · rw [slots_update]
          exact hring.popBottom rfl
        · rwa [List.length_cons,
            show bs p + ((xs.length + 1 : Nat) : Int) = bs p + 1 + xs.length by omega] at hfront
      · intro p' hne
        have hne' : p' ≠ p := fun he => hne (by rw [he])
        exact ⟨slots_update_of_ne _ _ _ hne' _ _, rfl, hrest p' hne'⟩

/-! ## Sizes -/

theorem Level.queueSize (h : Level d p b l) : queueSize d.front_ d.back_ p = some l.length := by
  have hle := h.ring.le
  have hf := h.front
  have hb := h.back
  have h1 := toNat_indexExt_lt d.front_ p
  have h2 := toNat_indexExt_lt d.back_ p
  unfold At at hf hb
  have hs : ((indexExt d.front_ p - indexExt d.back_ p).setWidth 32).toInt =
      ((indexExt d.front_ p).toNat : Int) - (indexExt d.back_ p).toNat := by
    rw [BitVec.toInt_eq_toNat_cond, BitVec.toNat_setWidth, BitVec.toNat_sub]
    split <;> omega
  rw [kCapacity_eq] at hle
  simp only [TaskPriorityDeque.queueSize, hs, kCapacity_eq]
  split_ifs <;> first | omega | (rw [Option.some.injEq]; omega)

theorem Holds.calculateSize (h : Holds d bs ls) : calculateSize d.front_ d.back_ =
    some (kTaskPriorities.map fun p => (ls p).length).sum := by
  have h0 := (h .kCritical).ring.le
  have h1 := (h .kHigh).ring.le
  have h2 := (h .kDefault).ring.le
  have h3 := (h .kLow).ring.le
  have hsum : (kTaskPriorities.map fun p => (ls p).length).sum = (ls .kCritical).length +
      (ls .kHigh).length + (ls .kDefault).length + (ls .kLow).length := by
    simp [kTaskPriorities, Nat.add_assoc]
  simp only [TaskPriorityDeque.calculateSize, (h _).queueSize, Option.bind_eq_bind,
    Option.bind_some, hsum]
  rw [if_pos]
  rw [kCapacity_eq] at *
  unfold kNumTaskPriorities
  omega

/-- Two words whose masked difference is zero have the same four indices. -/
theorem maybeZero_iff (front back : Word64) :
    (front ^^^ back) &&& kIndicesMask = 0 ↔ ∀ p, indexExt front p = indexExt back p := by
  have hm : ∀ i, kIndicesMask.getLsbD i = decide (i < 44) := fun i => by
    rw [show kIndicesMask = Bitfield.mask 64 0 44 from rfl, Bitfield.getLsbD_mask,
      decide_eq_decide]
    omega
  -- both sides say that the lower 44 bits agree
  have hbits : (front ^^^ back) &&& kIndicesMask = 0 ↔
      ∀ i < 44, front.getLsbD i = back.getLsbD i := by
    constructor
    · intro h i hi
      have := congrArg (fun w => w.getLsbD i) h
      simpa [hm, hi] using this
    · intro h
      apply BitVec.eq_of_getLsbD_eq
      intro i _
      rw [BitVec.getLsbD_and, BitVec.getLsbD_xor, hm]
      by_cases hi : i < 44
      · simp [h i hi]
      · simp [hi]
  rw [hbits]
  constructor
  · intro h p
    have := p.toNat_lt
    apply BitVec.eq_of_getLsbD_eq
    intro i _
    rw [getLsbD_indexExt, getLsbD_indexExt]
    by_cases hi : i < 11
    · rw [h _ (by omega)]
    · simp [hi]
  · intro h i hi
    obtain ⟨p, h1, h2⟩ : ∃ p : TaskPriority, 11 * p.toNat ≤ i ∧ i < 11 * p.toNat + 11 := by
      by_cases h1 : i < 11
      · exact ⟨.kCritical, by simp only [TaskPriority.toNat]; omega⟩
      by_cases h2 : i < 22
      · exact ⟨.kHigh, by simp only [TaskPriority.toNat]; omega⟩
      by_cases h3 : i < 33
      · exact ⟨.kDefault, by simp only [TaskPriority.toNat]; omega⟩
      · exact ⟨.kLow, by simp only [TaskPriority.toNat]; omega⟩
    have := congrArg (fun w => w.getLsbD (i - 11 * p.toNat)) (h p)
    simp only [getLsbD_indexExt] at this
    rw [show 11 * p.toNat + (i - 11 * p.toNat) = i by omega] at this
    simpa [show i - 11 * p.toNat < 11 by omega] using this

theorem Level.index_eq_iff (h : Level d p b l) :
    indexExt d.front_ p = indexExt d.back_ p ↔ l = [] := by
  have hle := h.ring.le
  have hf := h.front
  have hb := h.back
  unfold At at hf hb
  rw [kCapacity_eq] at hle
  rw [← BitVec.toNat_inj, ← List.length_eq_zero_iff]
  omega

theorem Holds.size (h : Holds d bs ls) (fuel : Nat) :
    d.size (fuel + 1) = some (kTaskPriorities.map fun p => (ls p).length).sum := by
  simp only [TaskPriorityDeque.size, sizeOrNotEmptyLoop, ne_eq, not_true_eq_false, ↓reduceIte,
    h.calculateSize]

theorem all_isEmpty_iff : kTaskPriorities.all (fun p => (ls p).isEmpty) = true ↔ ∀ p, ls p = [] := by
  simp only [List.all_eq_true, List.isEmpty_iff]
  exact ⟨fun h p => h p (by cases p <;> decide), fun h p _ => h p⟩

theorem Holds.empty (h : Holds d bs ls) (fuel : Nat) :
    d.empty (fuel + 1) = some (kTaskPriorities.all fun p => (ls p).isEmpty) := by
  have hz : (d.front_ ^^^ d.back_) &&& kIndicesMask = 0 ↔ ∀ p, ls p = [] := by
    rw [maybeZero_iff]
    exact forall_congr' fun p => (h p).index_eq_iff
  have hn : (kTaskPriorities.map fun p => (ls p).length).sum = 0 ↔ ∀ p, ls p = [] := by
    rw [← all_isEmpty_iff]
    simp [kTaskPriorities]
  simp only [TaskPriorityDeque.empty, sizeOrNotEmptyLoop, ne_eq, not_true_eq_false, ↓reduceIte,
    Bool.false_eq_true, h.calculateSize, Option.bind_some, hn, hz, Option.map_some,
    Option.some.injEq]
  rw [Bool.eq_iff_iff, beq_iff_eq, all_isEmpty_iff, ← hz]
  exact BitVec.toNat_inj (y := 0)

/-! ## Calls -/

/-- What a call does to the deque: the levels hold the lists that are left, and the levels that the
call does not work on are as they were. -/
def Does (d d' : TaskPriorityDeque τ) (ls : TaskPriority → List τ)
    (c : LevelCall TaskPriority τ) : Prop :=
  (∃ bs', Holds d' bs' (Levels.next kCapacity kTaskPriorities ls c)) ∧
  ∀ p, ¬ Levels.Works kTaskPriorities ls p c → Same d d' p

theorem Holds.popFront [Inhabited τ] (h : Holds d bs ls) :
    ∃ d', d.popFront = some ((Levels.top kTaskPriorities ls).bind fun p => (ls p).getLast?, d') ∧
      Does d d' ls .popFront := by
  obtain ⟨d', hr, hp, hrest⟩ := h.popFrontLoop kTaskPriorities
  refine ⟨d', hr, ?_, hrest⟩
  simp only [Levels.next]
  cases ht : Levels.top kTaskPriorities ls with
  | none => exact ⟨bs, fun p => (h p).of_same (hrest p (by rw [ht]; simp))⟩
  | some p =>
    exact ⟨_, h.update (hp p ht) fun p' hne => hrest p' fun he => hne (by rw [ht] at he; cases he; rfl)⟩

theorem Holds.popBack [Inhabited τ] (h : Holds d bs ls) (fuel : Nat) :
    ∃ d', d.popBack (fuel + 1) =
        some ((Levels.top kTaskPriorities ls).bind fun p => (ls p).head?, d') ∧
      Does d d' ls .popBack := by
  by_cases hnil : ∀ p, ls p = []
  · -- `Empty()` answers at once
    have ht : Levels.top kTaskPriorities ls = none := by simp [Levels.top, hnil]
    refine ⟨d, ?_, ?_, fun p _ => Same.refl d p⟩
    · rw [TaskPriorityDeque.popBack, h.empty fuel, all_isEmpty_iff.mpr hnil, ht]
      rfl
    · simp only [Levels.next, ht]
      exact ⟨bs, h⟩
  · obtain ⟨d', hr, hp, hrest⟩ := h.popBackLoop kTaskPriorities
    have hall : kTaskPriorities.all (fun p => (ls p).isEmpty) = false :=
      Bool.eq_false_iff.mpr fun he => hnil (all_isEmpty_iff.mp he)
    refine ⟨d', ?_, ?_, hrest⟩
    · rw [TaskPriorityDeque.popBack, h.empty fuel, hall]
      exact hr
    · simp only [Levels.next]
      cases ht : Levels.top kTaskPriorities ls with
      | none => exact ⟨bs, fun p => (h p).of_same (hrest p (by rw [ht]; simp))⟩
      | some p =>
        refine ⟨_, h.update (hp p ht) fun p' hne => hrest p' fun he => hne ?_⟩
        rw [ht] at he
        exact (Option.some.inj he).symm

theorem Holds.pushFront (h : Holds d bs ls) (task : τ) (p : TaskPriority) :
    ∃ d', d.pushFront task p =
        some (if (ls p).length = kCapacity then some task else none, d') ∧
      Does d d' ls (.pushFront task p) := by
  obtain ⟨d', hr, hp, hrest⟩ := (h p).pushFront task
  refine ⟨d', hr, ?_, fun p' hne => hrest p' (Ne.symm hne)⟩
  have hh := h.update hp hrest
  simp only [Levels.next]
  split_ifs at hh ⊢
  · exact ⟨_, by simpa only [Function.update_eq_self] using hh⟩
  · exact ⟨_, hh⟩

theorem Holds.pushBack (h : Holds d bs ls) (task : τ) (p : TaskPriority) :
    ∃ d', d.pushBack task p =
        some (if (ls p).length = kCapacity then some task else none, d') ∧
      Does d d' ls (.pushBack task p) := by
  obtain ⟨d', b', hr, hp, hrest⟩ := (h p).pushBack task
  refine ⟨d', hr, ?_, fun p' hne => hrest p' (Ne.symm hne)⟩
  have hh := h.update hp hrest
  simp only [Levels.next]
  split_ifs at hh ⊢
  · exact ⟨_, by simpa only [Function.update_eq_self] using hh⟩
  · exact ⟨_, hh⟩

theorem exists_top (h : ¬ ∀ p, ls p = []) :
    ∃ p, Levels.top kTaskPriorities ls = some p ∧ ls p ≠ [] := by
  cases ht : Levels.top kTaskPriorities ls with
  | none =>
    refine absurd (fun p => ?_) h
    have := List.find?_eq_none.mp ht p (by cases p <;> decide)
    simpa using this
  | some p => exact ⟨p, rfl, by simpa using List.find?_some ht⟩

/-- The number of tasks when one list changes. -/
theorem sum_update (ls : TaskPriority → List τ) (p : TaskPriority) (l : List τ) :
    (kTaskPriorities.map fun p' => (Function.update ls p l p').length).sum + (ls p).length =
      (kTaskPriorities.map fun p' => (ls p').length).sum + l.length := by
  cases p <;> simp [kTaskPriorities, Function.update] <;> omega

/-- `Flush` pops until all levels are empty, and works on no level that was empty before. -/
theorem Holds.flush [Inhabited τ] {fuel : Nat} (h : Holds d bs ls)
    (hfuel : (kTaskPriorities.map fun p => (ls p).length).sum < fuel) :
    ∃ d', d.flush fuel = some d' ∧ Does d d' ls .flush := by
  induction fuel generalizing d bs ls with
  | zero => exact absurd hfuel (Nat.not_lt_zero _)
  | succ fuel ih =>
    by_cases hnil : ∀ p, ls p = []
    · refine ⟨d, ?_, ⟨bs, ?_⟩, fun p _ => Same.refl d p⟩
      · rw [TaskPriorityDeque.flush, h.empty fuel, all_isEmpty_iff.mpr hnil]
        rfl
      · rw [show ls = fun _ => [] from funext hnil] at h
        exact h
    · obtain ⟨p, ht, hne⟩ := exists_top hnil
      obtain ⟨d₁, hr, ⟨bs₁, h₁⟩, hsame₁⟩ := h.popFront
      simp only [Levels.next, ht, Option.elim_some] at h₁
      have hsum := sum_update ls p (ls p).dropLast
      have hpos : 0 < (ls p).length := List.length_pos_iff.mpr hne
      rw [List.length_dropLast] at hsum
      obtain ⟨d₂, hd₂, hholds, hsame₂⟩ := ih h₁ (by omega)
      have hall : kTaskPriorities.all (fun p => (ls p).isEmpty) = false :=
        Bool.eq_false_iff.mpr fun he => hnil (all_isEmpty_iff.mp he)
      refine ⟨d₂, ?_, hholds, fun p' hp' => (hsame₁ p' fun hw => ?_).trans (hsame₂ p' fun hw => ?_)⟩
      · rw [TaskPriorityDeque.flush, h.empty fuel, hall, hr, ht]
        simp only [Option.bind_some, List.getLast?_eq_some_getLast hne, Option.bind_eq_bind,
          Bool.false_eq_true, ↓reduceIte]
        exact hd₂
      · -- the level popped from was not empty
        have : p = p' := Option.some.inj (ht.symm.trans hw)
        exact hp' (this ▸ hne)
      · refine hp' fun hp'nil => hw ?_
        have hpp : p' ≠ p := by
          rintro rfl
          exact hne hp'nil
        rw [Function.update_of_ne hpp, hp'nil]

/-- A call is answered as on the lists. -/
theorem Holds.call [Inhabited τ] (h : Holds d bs ls) {fuel : Nat}
    (hfuel : kNumTaskPriorities * kCapacity < fuel) (c : LevelCall TaskPriority τ) :
    ∃ d', d.call fuel c = some (Levels.ret kCapacity kTaskPriorities ls c, d') ∧ Does d d' ls c := by
  obtain ⟨f, hf⟩ : ∃ f, fuel = f + 1 := ⟨fuel - 1, by omega⟩
  cases c with
  | pushFront task p =>
    obtain ⟨d', hr, hd⟩ := h.pushFront task p
    exact ⟨d', by rw [TaskPriorityDeque.call, hr]; rfl, hd⟩
  | popFront =>
    obtain ⟨d', hr, hd⟩ := h.popFront
    exact ⟨d', by rw [TaskPriorityDeque.call, hr]; rfl, hd⟩
  | pushBack task p =>
    obtain ⟨d', hr, hd⟩ := h.pushBack task p
    exact ⟨d', by rw [TaskPriorityDeque.call, hr]; rfl, hd⟩
  | popBack =>
    obtain ⟨d', hr, hd⟩ := h.popBack f
    exact ⟨d', by rw [TaskPriorityDeque.call, hf, hr]; rfl, hd⟩
  | size =>
    refine ⟨d, by rw [TaskPriorityDeque.call, hf, h.size f]; rfl, ⟨bs, h⟩, fun p _ => Same.refl d p⟩
  | empty =>
    refine ⟨d, by rw [TaskPriorityDeque.call, hf, h.empty f]; rfl, ⟨bs, h⟩, fun p _ => Same.refl d p⟩
  | flush =>
    have hle : (kTaskPriorities.map fun p => (ls p).length).sum ≤ kNumTaskPriorities * kCapacity := by
      have h0 := (h .kCritical).ring.le
      have h1 := (h .kHigh).ring.le
      have h2 := (h .kDefault).ring.le
      have h3 := (h .kLow).ring.le
      simp only [kTaskPriorities, List.map_cons, List.map_nil, List.sum_cons, List.sum_nil,
        kNumTaskPriorities]
      omega
    obtain ⟨d', hr, hd⟩ := h.flush (Nat.lt_of_le_of_lt hle hfuel)
    exact ⟨d', by rw [TaskPriorityDeque.call, hr]; rfl, hd⟩

theorem Holds.run [Inhabited τ] {fuel : Nat} (hfuel : kNumTaskPriorities * kCapacity < fuel)
    (h : Holds d bs ls) (cs : List (LevelCall TaskPriority τ)) :
    ∃ d' bs', d.run fuel cs = some (Levels.rets kCapacity kTaskPriorities ls cs, d') ∧
      Holds d' bs' (Levels.run kCapacity kTaskPriorities ls cs) := by
  induction cs generalizing d bs ls with
  | nil => exact ⟨d, bs, rfl, h⟩
  | cons c cs ih =>
    obtain ⟨d₁, hr, ⟨bs₁, h₁⟩, -⟩ := h.call hfuel c
    obtain ⟨d₂, bs₂, hr₂, h₂⟩ := ih h₁
    refine ⟨d₂, bs₂, ?_, h₂⟩
    simp only [TaskPriorityDeque.run, hr, hr₂, Levels.rets, Option.bind_eq_bind, Option.bind_some]
    rfl

/-- **A `TaskPriorityDeque` behaves as four lists of at most 1024 tasks, one for each priority.**
After every sequence of calls on a fresh deque, which is answered as on the lists without a failed
assertion, a further call is answered so too, and it leaves the slots and the packed indices of every
priority that it does not work on as they are. -/
theorem run_eq_rets [Inhabited τ] (cs : List (LevelCall TaskPriority τ)) (fuel : Nat) :
    ∃ d : TaskPriorityDeque τ,
      TaskPriorityDeque.run (kNumTaskPriorities * kCapacity + 1 + fuel) fresh cs =
        some (Levels.rets kCapacity kTaskPriorities (fun _ => []) cs, d) ∧
      ∀ c, ∃ d', d.call (kNumTaskPriorities * kCapacity + 1 + fuel) c =
          some (Levels.ret kCapacity kTaskPriorities
            (Levels.run kCapacity kTaskPriorities (fun _ => []) cs) c, d') ∧
        ∀ p, ¬ Levels.Works kTaskPriorities
            (Levels.run kCapacity kTaskPriorities (fun _ => []) cs) p c → Same d d' p := by
  have hfuel : kNumTaskPriorities * kCapacity < kNumTaskPriorities * kCapacity + 1 + fuel := by omega
  obtain ⟨d, bs, hr, h⟩ := (fresh_holds (τ := τ)).run hfuel cs
  refine ⟨d, hr, fun c => ?_⟩
  obtain ⟨d', hc, -, hsame⟩ := h.call hfuel c
  exact ⟨d', hc, hsame⟩

end TaskPriorityDeque

end AsyncLib
