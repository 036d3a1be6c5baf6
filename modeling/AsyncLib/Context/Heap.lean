import Mathlib.Algebra.BigOperators.Group.Finset.Basic
import Mathlib.Algebra.BigOperators.Pi
import Mathlib.Algebra.Order.BigOperators.Group.Finset
import Mathlib.Tactic.Abel
import AsyncLib.Context.Waiters

/-!
# `AsyncValue`s, their references and forwarding

`async/context/async_value.{h,cpp}`: reference counts (`AddRef`, `DropRef`, `Destroy`), waiters
(`AndThen`, `NotifyAvailable`) and `IndirectAsyncValue::ForwardTo`, as functions on a heap of
values. `AndThen` and the exchange of `NotifyAvailable` are single steps here: `Context/Waiters.lean`
proves that their interleaved code enqueues or runs every waiter once.

* `Waiter κ`: the closures in a waiter list: the one that `ForwardTo` leaves behind, and those of
  the value's clients (`κ`).
* `owned`: the references that the heap itself holds, through `mValue` and through the closures.
* `Ok own h E`: the heap is well formed, and the count of every value is the number of references
  that the heap holds plus those that the rest of the program holds (`E`). Each operation has one
  rule that says what it does to `E`.
* A value is destroyed when its count is 0. Its cell stays in the model; `Wf` says that a destroyed
  indirect value points nowhere.
-/

namespace AsyncLib

namespace AsyncValue

/-- `AsyncValue::Kind`. -/
inductive Kind where
  | kConcrete
  | kIndirect
  deriving DecidableEq, Repr

/-- An `AsyncValue *`. -/
abbrev Addr := Nat

/-- A closure that waits for a value. -/
inductive Waiter (κ : Type) where
  /-- The closure of `ForwardTo`, holding references to both values. -/
  | forward (this2 value2 : Addr)
  | client (c : κ)

/-- An `AsyncValue`. `out` is what the producer of a value stores in it: the payload or the
diagnostic. While the value is unavailable nobody reads it, and it is what the producer will
store. -/
structure Cell (V E κ : Type) where
  mKind : Kind
  mRefCount : Nat
  mTypeId : Nat
  state : State
  waiters : List (Waiter κ)
  mValue : Option Addr
  out : Option (Except E V)

/-- The values allocated so far, below `next`. -/
structure Heap (V E κ : Type) where
  cell : Addr → Cell V E κ
  next : Addr

namespace Heap

variable {V E κ : Type}

/-! ## Operations -/

/-- A write to the value at `a`. -/
def modify (h : Heap V E κ) (a : Addr) (f : Cell V E κ → Cell V E κ) : Heap V E κ :=
  { h with cell := Function.update h.cell a (f (h.cell a)) }

/-- A new value. -/
def alloc (h : Heap V E κ) (c : Cell V E κ) : Heap V E κ :=
  { cell := Function.update h.cell h.next c, next := h.next + 1 }

/-- `NumCount`. -/
def refs (h : Heap V E κ) (a : Addr) : Nat := (h.cell a).mRefCount

/-- `IsAvailable`. -/
def isAvailable (h : Heap V E κ) (a : Addr) : Bool := (h.cell a).state.isAvailable

/-- `IsError`. -/
def isError (h : Heap V E κ) (a : Addr) : Bool := decide ((h.cell a).state = .kError)

/-- `AddRef(count)`. -/
def addRef (h : Heap V E κ) (a : Addr) (count : Nat) : Heap V E κ :=
  h.modify a fun c => { c with mRefCount := c.mRefCount + count }

/-- The decrement of `DropRef(count)`. -/
def decRef (h : Heap V E κ) (a : Addr) (count : Nat) : Heap V E κ :=
  h.modify a fun c => { c with mRefCount := c.mRefCount - count }

/-- `DropRef(count)`. With the last reference the value is destroyed, and an indirect value drops
the value it points at; that one is concrete (the assertions of `ForwardTo`), so the destructor
goes no deeper. -/
def dropRef (h : Heap V E κ) (a : Addr) (count : Nat) : Heap V E κ :=
  let h' := h.decRef a count
  if h.refs a = count then
    match (h.cell a).mKind, (h.cell a).mValue with
    | .kIndirect, some t => (h'.modify a fun c => { c with mValue := none }).decRef t 1
    | _, _ => h'
  else h'

/-- `AndThen`: the new heap, and the waiter if it runs at once. `EnqueueWaiter` puts it at the head
of the list. -/
def andThen (h : Heap V E κ) (a : Addr) (w : Waiter κ) : Heap V E κ × List (Waiter κ) :=
  if h.isAvailable a then (h, [w])
  else (h.modify a fun c => { c with waiters := w :: c.waiters }, [])

/-- The exchange of `NotifyAvailable`: the new heap, and the waiters that `RunWaiters` runs. -/
def notifyAvailable (h : Heap V E κ) (a : Addr) (st : State) : Heap V E κ × List (Waiter κ) :=
  (h.modify a fun c => { c with state := st, waiters := [] }, (h.cell a).waiters)

/-- The value behind an available `v`, with the reference to `v` turned into one to it. -/
def shorten (h : Heap V E κ) (v : Addr) : Heap V E κ × Addr :=
  match (h.cell v).mKind, (h.cell v).mValue with
  | .kIndirect, some t => ((h.addRef t 1).dropRef v 1, t)
  | _, _ => (h, v)

/-- `IndirectAsyncValue::ForwardTo(value)` on `i`, which takes over one reference to `v`: the new
heap, and the waiters to run. -/
def forwardTo (h : Heap V E κ) (i v : Addr) : Heap V E κ × List (Waiter κ) :=
  if h.isAvailable v then
    let (h', t) := h.shorten v
    (h'.modify i fun c => { c with mValue := some t, mTypeId := (h'.cell t).mTypeId }).notifyAvailable
      i (h.cell v).state
  else (h.addRef i 1).andThen v (.forward i v)

/-- What reading an available value gives: an indirect value is read through `mValue`. -/
def value (h : Heap V E κ) (a : Addr) : Option (Except E V) :=
  if h.isAvailable a then
    match (h.cell a).mKind with
    | .kConcrete => (h.cell a).out
    | .kIndirect => (h.cell a).mValue.bind fun t => (h.cell t).out
  else none

end Heap

/-! ## Closures and references -/

/-- The references that a closure holds, given those of the clients' closures. -/
def Waiter.refs {κ : Type} (own : κ → Addr → Nat) : Waiter κ → Addr → Nat
  | .forward i v => Pi.single i 1 + Pi.single v 1
  | .client c => own c

namespace Heap

variable {V E κ : Type} {M : Type} [AddCommMonoid M]

/-- The weight of all closures that wait for some value, for a weight `f` of a closure. -/
def waiting (f : Waiter κ → M) (h : Heap V E κ) : M :=
  ∑ a ∈ Finset.range h.next, ((h.cell a).waiters.map f).sum

/-- How many indirect values point at a value. -/
def pointing (h : Heap V E κ) : Addr → Nat :=
  ∑ a ∈ Finset.range h.next, (h.cell a).mValue.elim 0 fun t => Pi.single t 1

/-- The count of every value is the number of references to it: those of the closures, those of
the indirect values that point at it, and `X` from outside the heap. -/
def Accounted (own : κ → Addr → Nat) (h : Heap V E κ) (X : Addr → Nat) : Prop :=
  ∀ x, h.refs x = waiting (Waiter.refs own) h x + h.pointing x + X x

section Modify

variable (h : Heap V E κ) (a : Addr) (f : Waiter κ → M)

@[simp] theorem modify_next (g : Cell V E κ → Cell V E κ) : (h.modify a g).next = h.next := rfl

theorem modify_cell (g : Cell V E κ → Cell V E κ) (b : Addr) :
    (h.modify a g).cell b = if b = a then g (h.cell a) else h.cell b := by
  unfold modify
  simp only [Function.update_apply]

/-- A sum over the values after a write to one of them. -/
theorem sum_modify (w : Cell V E κ → M) (g : Cell V E κ → Cell V E κ) (ha : a < h.next) :
    (∑ b ∈ Finset.range h.next, w ((h.modify a g).cell b)) + w (h.cell a) =
      (∑ b ∈ Finset.range h.next, w (h.cell b)) + w (g (h.cell a)) := by
  have hmem : a ∈ Finset.range h.next := Finset.mem_range.mpr ha
  rw [← Finset.add_sum_erase _ _ hmem, ← Finset.add_sum_erase (Finset.range h.next)
    (fun b => w (h.cell b)) hmem]
  have hrest : ∑ b ∈ (Finset.range h.next).erase a, w ((h.modify a g).cell b) =
      ∑ b ∈ (Finset.range h.next).erase a, w (h.cell b) :=
    Finset.sum_congr rfl fun b hb => by rw [modify_cell, if_neg (Finset.ne_of_mem_erase hb)]
  rw [hrest, modify_cell, if_pos rfl]
  abel

/-- A write that keeps what is summed. -/
theorem sum_modify_same (w : Cell V E κ → M) (g : Cell V E κ → Cell V E κ)
    (hw : w (g (h.cell a)) = w (h.cell a)) :
    (∑ b ∈ Finset.range h.next, w ((h.modify a g).cell b)) =
      ∑ b ∈ Finset.range h.next, w (h.cell b) := by
  refine Finset.sum_congr rfl fun b _ => ?_
  rw [modify_cell]
  split
  · rename_i hb
    rw [hw, hb]
  · rfl

end Modify

/-! ## What the operations do to the closures -/

section Waiting

variable {h : Heap V E κ} {a : Addr} (f : Waiter κ → M)

@[simp] theorem waiting_addRef (k : Nat) : waiting f (h.addRef a k) = waiting f h :=
  sum_modify_same h a (fun c => (c.waiters.map f).sum) _ rfl

@[simp] theorem waiting_decRef (k : Nat) : waiting f (h.decRef a k) = waiting f h :=
  sum_modify_same h a (fun c => (c.waiters.map f).sum) _ rfl

@[simp] theorem waiting_dropRef (k : Nat) : waiting f (h.dropRef a k) = waiting f h := by
  unfold dropRef
  simp only
  split
  · split
    · rw [waiting_decRef]
      have := sum_modify_same (h.decRef a k) a (fun c => (c.waiters.map f).sum)
        (fun c => { c with mValue := none }) rfl
      exact this.trans (waiting_decRef f k)
    · exact waiting_decRef f k
  · exact waiting_decRef f k

theorem waiting_alloc (c : Cell V E κ) (hc : c.waiters = []) :
    waiting f (h.alloc c) = waiting f h := by
  unfold waiting alloc
  simp only
  rw [Finset.sum_range_succ, Function.update_self, hc, List.map_nil, List.sum_nil, add_zero]
  exact Finset.sum_congr rfl fun b hb => by
    rw [Function.update_of_ne (Nat.ne_of_lt (Finset.mem_range.mp hb))]

end Waiting

section WaitingCancel

variable {M : Type} [AddCancelCommMonoid M] {h : Heap V E κ} {a : Addr} (f : Waiter κ → M)

theorem waiting_andThen (w : Waiter κ) (ha : a < h.next) :
    waiting f (h.andThen a w).1 + ((h.andThen a w).2.map f).sum = waiting f h + f w := by
  unfold andThen
  split
  · simp
  · have hs := sum_modify h a (fun c => (c.waiters.map f).sum)
      (fun c => { c with waiters := w :: c.waiters }) ha
    simp only [List.map_cons, List.sum_cons, ← add_assoc] at hs
    simp only [List.map_nil, List.sum_nil, add_zero]
    exact add_right_cancel hs

theorem waiting_notifyAvailable (st : State) (ha : a < h.next) :
    waiting f (h.notifyAvailable a st).1 + ((h.notifyAvailable a st).2.map f).sum =
      waiting f h := by
  have hs := sum_modify h a (fun c => (c.waiters.map f).sum)
    (fun c => { c with state := st, waiters := [] }) ha
  simp only [List.map_nil, List.sum_nil, add_zero] at hs
  exact hs

@[simp] theorem waiting_shorten (v : Addr) : waiting f (h.shorten v).1 = waiting f h := by
  unfold shorten
  split
  · rw [waiting_dropRef, waiting_addRef]
  · rfl

@[simp] theorem addRef_next (k : Nat) : (h.addRef a k).next = h.next := rfl

@[simp] theorem decRef_next (k : Nat) : (h.decRef a k).next = h.next := rfl

@[simp] theorem dropRef_next (k : Nat) : (h.dropRef a k).next = h.next := by
  unfold dropRef
  simp only
  split
  · split <;> rfl
  · rfl

@[simp] theorem shorten_next (v : Addr) : (h.shorten v).1.next = h.next := by
  unfold shorten
  split
  · simp
  · rfl

@[simp] theorem andThen_next (w : Waiter κ) : (h.andThen a w).1.next = h.next := by
  unfold andThen
  split <;> rfl

@[simp] theorem notifyAvailable_next (st : State) :
    (h.notifyAvailable a st).1.next = h.next := rfl

@[simp] theorem forwardTo_next (i v : Addr) : (h.forwardTo i v).1.next = h.next := by
  unfold forwardTo
  split
  · simp
  · simp

theorem waiting_forwardTo {i v : Addr} (hi : i < h.next) (hv : v < h.next) :
    waiting f (h.forwardTo i v).1 + ((h.forwardTo i v).2.map f).sum =
      waiting f h + if h.isAvailable v then 0 else f (.forward i v) := by
  unfold forwardTo
  split
  · simp only [add_zero]
    rw [waiting_notifyAvailable f _ (by simpa using hi)]
    have := sum_modify_same (h.shorten v).1 i (fun c => (c.waiters.map f).sum)
      (fun c => { c with
        mValue := some (h.shorten v).2
        mTypeId := ((h.shorten v).1.cell (h.shorten v).2).mTypeId }) rfl
    exact this.trans (waiting_shorten f v)
  · rw [waiting_andThen f _ (by simpa using hv), waiting_addRef]

end WaitingCancel

section WaitingNat

variable {ι : Type} {h : Heap V E κ} {a : Addr} (f : Waiter κ → ι → Nat) (x : ι)

theorem waiting_apply : waiting f h x =
    ∑ a ∈ Finset.range h.next, ((h.cell a).waiters.map fun w => f w x).sum := by
  unfold waiting
  rw [Finset.sum_apply]
  refine Finset.sum_congr rfl fun b _ => ?_
  induction (h.cell b).waiters with
  | nil => rfl
  | cons w ws ih => simp only [List.map_cons, List.sum_cons, Pi.add_apply, ih]

/-- A closure that waits counts. -/
theorem le_waiting {w : Waiter κ} (ha : a < h.next) (hw : w ∈ (h.cell a).waiters) :
    f w x ≤ waiting f h x := by
  rw [waiting_apply]
  calc f w x ≤ ((h.cell a).waiters.map fun w => f w x).sum :=
        List.single_le_sum (fun _ _ => Nat.zero_le _) _ (List.mem_map_of_mem hw)
    _ ≤ _ := Finset.single_le_sum (f := fun a => ((h.cell a).waiters.map fun w => f w x).sum)
        (fun _ _ => Nat.zero_le _) (Finset.mem_range.mpr ha)

/-- What counts is some closure that waits. -/
theorem exists_of_waiting_pos (hp : 0 < waiting f h x) :
    ∃ b, b < h.next ∧ ∃ w ∈ (h.cell b).waiters, 0 < f w x := by
  rw [waiting_apply] at hp
  obtain ⟨b, hb, hpos⟩ := Finset.exists_ne_zero_of_sum_ne_zero (Nat.pos_iff_ne_zero.mp hp)
  refine ⟨b, Finset.mem_range.mp hb, ?_⟩
  by_contra hno
  refine hpos (List.sum_eq_zero fun n hn => ?_)
  obtain ⟨w, hw, rfl⟩ := List.mem_map.mp hn
  exact Nat.eq_zero_of_not_pos fun h0 => hno ⟨w, hw, h0⟩

end WaitingNat

/-! ## What the operations do to the fields -/

section Fields

variable {h : Heap V E κ} {a : Addr}

theorem refs_addRef (k : Nat) (x : Addr) :
    (h.addRef a k).refs x = h.refs x + (Pi.single a k : Addr → Nat) x := by
  simp only [refs, addRef, modify_cell, Pi.single_apply]
  split
  · rename_i hx; subst hx; rfl
  · rfl

theorem refs_decRef (k : Nat) (x : Addr) :
    (h.decRef a k).refs x = h.refs x - (Pi.single a k : Addr → Nat) x := by
  simp only [refs, decRef, modify_cell, Pi.single_apply]
  split
  · rename_i hx; subst hx; rfl
  · rfl

/-- `AddRef` writes the count only. -/
theorem addRef_cell (k : Nat) (b : Addr) :
    (h.addRef a k).cell b = { h.cell b with mRefCount := (h.addRef a k).refs b } := by
  simp only [refs, addRef, modify_cell]
  split
  · rename_i hb; subst hb; rfl
  · rfl

theorem decRef_cell (k : Nat) (b : Addr) :
    (h.decRef a k).cell b = { h.cell b with mRefCount := (h.decRef a k).refs b } := by
  simp only [refs, decRef, modify_cell]
  split
  · rename_i hb; subst hb; rfl
  · rfl

/-- `DropRef` writes counts, and `mValue` of an indirect value that it destroys. -/
theorem dropRef_cell (k : Nat) (b : Addr) :
    (h.dropRef a k).cell b = { h.cell b with
      mRefCount := (h.dropRef a k).refs b, mValue := ((h.dropRef a k).cell b).mValue } := by
  unfold dropRef
  simp only
  split
  · split
    · rw [decRef_cell, modify_cell]
      split
      · rename_i hb; subst hb; rw [decRef_cell]
      · rw [decRef_cell]
    · rw [decRef_cell]
  · rw [decRef_cell]

@[simp] theorem addRef_mKind (k : Nat) (b : Addr) :
    ((h.addRef a k).cell b).mKind = (h.cell b).mKind := by rw [addRef_cell]

@[simp] theorem addRef_out (k : Nat) (b : Addr) :
    ((h.addRef a k).cell b).out = (h.cell b).out := by rw [addRef_cell]

@[simp] theorem addRef_state (k : Nat) (b : Addr) :
    ((h.addRef a k).cell b).state = (h.cell b).state := by rw [addRef_cell]

@[simp] theorem addRef_waiters (k : Nat) (b : Addr) :
    ((h.addRef a k).cell b).waiters = (h.cell b).waiters := by rw [addRef_cell]

@[simp] theorem addRef_mValue (k : Nat) (b : Addr) :
    ((h.addRef a k).cell b).mValue = (h.cell b).mValue := by rw [addRef_cell]

@[simp] theorem dropRef_mKind (k : Nat) (b : Addr) :
    ((h.dropRef a k).cell b).mKind = (h.cell b).mKind := by rw [dropRef_cell]

@[simp] theorem dropRef_out (k : Nat) (b : Addr) :
    ((h.dropRef a k).cell b).out = (h.cell b).out := by rw [dropRef_cell]

@[simp] theorem dropRef_state (k : Nat) (b : Addr) :
    ((h.dropRef a k).cell b).state = (h.cell b).state := by rw [dropRef_cell]

@[simp] theorem dropRef_waiters (k : Nat) (b : Addr) :
    ((h.dropRef a k).cell b).waiters = (h.cell b).waiters := by rw [dropRef_cell]

/-- A drop only clears pointers. -/
theorem dropRef_mValue {k : Nat} {b t : Addr} (hm : ((h.dropRef a k).cell b).mValue = some t) :
    (h.cell b).mValue = some t := by
  unfold dropRef at hm
  simp only at hm
  split at hm
  · split at hm
    · rw [decRef_cell, modify_cell] at hm
      split at hm
      · cases hm
      · rwa [decRef_cell] at hm
    · rwa [decRef_cell] at hm
  · rwa [decRef_cell] at hm

@[simp] theorem shorten_mKind (v b : Addr) :
    ((h.shorten v).1.cell b).mKind = (h.cell b).mKind := by
  unfold shorten; split <;> simp

@[simp] theorem shorten_out (v b : Addr) : ((h.shorten v).1.cell b).out = (h.cell b).out := by
  unfold shorten; split <;> simp

@[simp] theorem shorten_state (v b : Addr) :
    ((h.shorten v).1.cell b).state = (h.cell b).state := by
  unfold shorten; split <;> simp

@[simp] theorem shorten_waiters (v b : Addr) :
    ((h.shorten v).1.cell b).waiters = (h.cell b).waiters := by
  unfold shorten; split <;> simp

theorem shorten_mValue {v b t : Addr} (hm : ((h.shorten v).1.cell b).mValue = some t) :
    (h.cell b).mValue = some t := by
  unfold shorten at hm
  split at hm
  · simpa using dropRef_mValue hm
  · exact hm

/-- The value behind `v` is `v` or what it points at. -/
theorem shorten_target (v : Addr) :
    (h.cell v).mValue = some (h.shorten v).2 ∨ (h.shorten v).2 = v := by
  unfold shorten
  split
  · rename_i hm; exact .inl hm
  · exact .inr rfl

/-- The exchange writes the state and empties the list. -/
theorem notifyAvailable_cell (st : State) (b : Addr) : (h.notifyAvailable a st).1.cell b =
    if b = a then { h.cell a with state := st, waiters := [] } else h.cell b := by
  unfold notifyAvailable
  rw [modify_cell]

/-- `AndThen` drops no closure. -/
theorem waiters_andThen {w x : Waiter κ} {b : Addr} (hw : w ∈ (h.cell b).waiters) :
    w ∈ ((h.andThen a x).1.cell b).waiters := by
  unfold andThen
  split
  · exact hw
  · rw [modify_cell]
    split
    · rename_i hb
      exact List.mem_cons_of_mem _ (hb ▸ hw)
    · exact hw

/-- A closure passed to `AndThen` waits if the value is unavailable. -/
theorem mem_andThen {x : Waiter κ} (hv : h.isAvailable a = false) :
    x ∈ ((h.andThen a x).1.cell a).waiters := by
  unfold andThen
  rw [if_neg (by simp [hv]), modify_cell, if_pos rfl]
  exact List.mem_cons_self

/-- Only the closure of `AndThen` joins a waiter list. -/
theorem mem_waiters_andThen {w x : Waiter κ} {b : Addr}
    (hw : w ∈ ((h.andThen a x).1.cell b).waiters) :
    w ∈ (h.cell b).waiters ∨ (b = a ∧ w = x ∧ h.isAvailable a = false) := by
  unfold andThen at hw
  split at hw
  · exact .inl hw
  · rename_i hv
    rw [modify_cell] at hw
    split at hw
    · rename_i hb
      rcases List.mem_cons.mp hw with hw | hw
      · exact .inr ⟨hb, hw, by simpa using hv⟩
      · exact .inl (hb ▸ hw)
    · exact .inl hw

/-- The exchange empties one list. -/
theorem mem_waiters_notifyAvailable {w : Waiter κ} {st : State} {b : Addr}
    (hw : w ∈ ((h.notifyAvailable a st).1.cell b).waiters) : w ∈ (h.cell b).waiters := by
  rw [notifyAvailable_cell] at hw
  split at hw
  · cases hw
  · exact hw

/-- `ForwardTo` an available value. -/
theorem forwardTo_available {i v : Addr} (hv : h.isAvailable v = true) :
    (h.forwardTo i v).2 = (h.cell i).waiters ∧
    ∀ b, (h.forwardTo i v).1.cell b = if b = i then { (h.shorten v).1.cell i with
        mValue := some (h.shorten v).2, mTypeId := ((h.shorten v).1.cell (h.shorten v).2).mTypeId,
        state := (h.cell v).state, waiters := [] }
      else (h.shorten v).1.cell b := by
  unfold forwardTo
  rw [if_pos hv]
  simp only [notifyAvailable]
  refine ⟨by rw [modify_cell, if_pos rfl]; simp, fun b => ?_⟩
  rw [modify_cell]
  split
  · rw [modify_cell, if_pos rfl]
  · rename_i hb
    rw [modify_cell, if_neg hb]

/-- `ForwardTo` an unavailable value. -/
theorem forwardTo_unavailable {i v : Addr} (hv : h.isAvailable v = false) :
    (h.forwardTo i v).2 = [] ∧
    ∀ b, (h.forwardTo i v).1.cell b = { h.cell b with
      mRefCount := (h.addRef i 1).refs b,
      waiters := if b = v then .forward i v :: (h.cell v).waiters else (h.cell b).waiters } := by
  have hv' : (h.addRef i 1).isAvailable v = false := by simpa [isAvailable] using hv
  unfold forwardTo andThen
  rw [if_neg (by simp [hv]), if_neg (by simp [hv'])]
  refine ⟨rfl, fun b => ?_⟩
  simp only [modify_cell]
  split
  · rename_i hb; subst hb; rw [addRef_cell]
  · rw [addRef_cell]

section ForwardTo

variable (h) (i v b : Addr)

@[simp] theorem forwardTo_mKind : ((h.forwardTo i v).1.cell b).mKind = (h.cell b).mKind := by
  by_cases hv : h.isAvailable v = true
  · rw [(forwardTo_available hv).2]
    split
    · rename_i hb; subst hb; simp
    · simp
  · rw [(forwardTo_unavailable (by simpa using hv)).2]

@[simp] theorem forwardTo_out : ((h.forwardTo i v).1.cell b).out = (h.cell b).out := by
  by_cases hv : h.isAvailable v = true
  · rw [(forwardTo_available hv).2]
    split
    · rename_i hb; subst hb; simp
    · simp
  · rw [(forwardTo_unavailable (by simpa using hv)).2]

/-- Only the forwarded value changes its state. -/
theorem forwardTo_state : ((h.forwardTo i v).1.cell b).state =
    if b = i ∧ h.isAvailable v = true then (h.cell v).state else (h.cell b).state := by
  by_cases hv : h.isAvailable v = true
  · rw [(forwardTo_available hv).2]
    by_cases hb : b = i
    · rw [if_pos hb, if_pos ⟨hb, hv⟩]
    · rw [if_neg hb, if_neg fun hc => hb hc.1, shorten_state]
  · rw [(forwardTo_unavailable (by simpa using hv)).2]
    exact (if_neg fun hc => hv hc.2).symm

/-- Availability only grows. -/
theorem forwardTo_isAvailable (hb : h.isAvailable b = true) :
    (h.forwardTo i v).1.isAvailable b = true := by
  rw [isAvailable, forwardTo_state]
  split
  · rename_i hc; exact hc.2
  · exact hb

variable {h i v b}

/-- Only the forwarded value gets a pointer. -/
theorem forwardTo_mValue {t : Addr} (hm : ((h.forwardTo i v).1.cell b).mValue = some t) :
    (b = i ∧ h.isAvailable v = true ∧ t = (h.shorten v).2) ∨ (h.cell b).mValue = some t := by
  by_cases hv : h.isAvailable v = true
  · rw [(forwardTo_available hv).2] at hm
    split at hm
    · rename_i hb
      cases hm
      exact .inl ⟨hb, hv, rfl⟩
    · exact .inr (shorten_mValue hm)
  · rw [(forwardTo_unavailable (by simpa using hv)).2] at hm
    exact .inr hm

/-- Only the closure of `ForwardTo` joins a waiter list. -/
theorem mem_waiters_forwardTo {w : Waiter κ} (hw : w ∈ ((h.forwardTo i v).1.cell b).waiters) :
    w ∈ (h.cell b).waiters ∨ (w = .forward i v ∧ b = v ∧ h.isAvailable v = false) := by
  by_cases hv : h.isAvailable v = true
  · rw [(forwardTo_available hv).2] at hw
    split at hw
    · exact absurd hw (List.not_mem_nil)
    · exact .inl (by simpa using hw)
  · have hv' : h.isAvailable v = false := by simpa using hv
    rw [(forwardTo_unavailable hv').2] at hw
    split at hw
    · rename_i hb
      rcases List.mem_cons.mp hw with hw | hw
      · exact .inr ⟨hw, hb, hv'⟩
      · exact .inl (hb ▸ hw)
    · exact .inl hw

/-- A closure waits on until its value is available. -/
theorem waiters_forwardTo {w : Waiter κ} (hw : w ∈ (h.cell b).waiters) :
    w ∈ ((h.forwardTo i v).1.cell b).waiters ∨ (h.forwardTo i v).1.isAvailable b = true := by
  by_cases hv : h.isAvailable v = true
  · by_cases hb : b = i
    · right
      rw [isAvailable, forwardTo_state, if_pos ⟨hb, hv⟩]
      exact hv
    · left
      rw [(forwardTo_available hv).2, if_neg hb, shorten_waiters]
      exact hw
  · left
    rw [(forwardTo_unavailable (by simpa using hv)).2]
    split
    · rename_i hb
      exact List.mem_cons_of_mem _ (hb ▸ hw)
    · exact hw

/-- The closures that run were waiting for the forwarded value, which is available now. -/
theorem mem_released_forwardTo {w : Waiter κ} (hw : w ∈ (h.forwardTo i v).2) :
    w ∈ (h.cell i).waiters ∧ h.isAvailable v = true := by
  by_cases hv : h.isAvailable v = true
  · rw [(forwardTo_available hv).1] at hw
    exact ⟨hw, hv⟩
  · rw [(forwardTo_unavailable (by simpa using hv)).1] at hw
    cases hw

end ForwardTo

end Fields

/-! ## What never changes -/

theorem alloc_cell (h : Heap V E κ) (c : Cell V E κ) (b : Addr) :
    (h.alloc c).cell b = if b = h.next then c else h.cell b := by
  simp only [alloc, Function.update_apply]

@[simp] theorem alloc_next (h : Heap V E κ) (c : Cell V E κ) : (h.alloc c).next = h.next + 1 := rfl

/-- `h'` is a later heap: values keep their kind and what they are made for, and an available value
keeps its state. -/
structure Grows (h h' : Heap V E κ) : Prop where
  next : h.next ≤ h'.next
  mKind : ∀ a, a < h.next → (h'.cell a).mKind = (h.cell a).mKind
  out : ∀ a, a < h.next → (h'.cell a).out = (h.cell a).out
  state : ∀ a, a < h.next → h.isAvailable a = true → (h'.cell a).state = (h.cell a).state

section Grows

variable {h h' h'' : Heap V E κ} {a : Addr}

theorem Grows.refl (h : Heap V E κ) : Grows h h :=
  ⟨Nat.le_refl _, fun _ _ => rfl, fun _ _ => rfl, fun _ _ _ => rfl⟩

theorem Grows.isAvailable (hg : Grows h h') (ha : a < h.next) (hv : h.isAvailable a = true) :
    h'.isAvailable a = true := by
  rw [Heap.isAvailable, hg.state a ha hv]
  exact hv

theorem Grows.trans (h1 : Grows h h') (h2 : Grows h' h'') : Grows h h'' := by
  have hlt : ∀ b, b < h.next → b < h'.next := fun b hb => Nat.lt_of_lt_of_le hb h1.next
  refine ⟨Nat.le_trans h1.next h2.next, fun b hb => ?_, fun b hb => ?_, fun b hb hv => ?_⟩
  · rw [h2.mKind b (hlt b hb), h1.mKind b hb]
  · rw [h2.out b (hlt b hb), h1.out b hb]
  · rw [h2.state b (hlt b hb) (h1.isAvailable hb hv), h1.state b hb hv]

theorem Grows.addRef (h : Heap V E κ) (a : Addr) (k : Nat) : Grows h (h.addRef a k) :=
  ⟨Nat.le_refl _, fun _ _ => by simp, fun _ _ => by simp, fun _ _ _ => by simp⟩

theorem Grows.dropRef (h : Heap V E κ) (a : Addr) (k : Nat) : Grows h (h.dropRef a k) :=
  ⟨by simp, fun _ _ => by simp, fun _ _ => by simp, fun _ _ _ => by simp⟩

theorem Grows.alloc (h : Heap V E κ) (c : Cell V E κ) : Grows h (h.alloc c) := by
  have hc : ∀ b, b < h.next → (h.alloc c).cell b = h.cell b := fun b hb => by
    rw [alloc_cell, if_neg (Nat.ne_of_lt hb)]
  exact ⟨Nat.le_succ _, fun b hb => by rw [hc b hb], fun b hb => by rw [hc b hb],
    fun b hb _ => by rw [hc b hb]⟩

theorem Grows.andThen (h : Heap V E κ) (a : Addr) (w : Waiter κ) : Grows h (h.andThen a w).1 := by
  unfold Heap.andThen
  split
  · exact .refl h
  · have hc : ∀ b, (h.modify a fun c => { c with waiters := w :: c.waiters }).cell b =
        { h.cell b with
          waiters := ((h.modify a fun c => { c with waiters := w :: c.waiters }).cell b).waiters } := by
      intro b
      rw [modify_cell]
      split
      · rename_i hb; rw [hb]
      · rfl
    refine ⟨Nat.le_refl _, fun b _ => ?_, fun b _ => ?_, fun b _ _ => ?_⟩ <;> rw [hc]

theorem Grows.notifyAvailable {st : State} (hun : h.isAvailable a = false) :
    Grows h (h.notifyAvailable a st).1 := by
  refine ⟨by simp, fun b _ => ?_, fun b _ => ?_, fun b _ hv => ?_⟩
  · rw [notifyAvailable_cell]
    split
    · rename_i hb; rw [hb]
    · rfl
  · rw [notifyAvailable_cell]
    split
    · rename_i hb; rw [hb]
    · rfl
  · have hb : b ≠ a := fun he => by rw [he, hun] at hv; cases hv
    rw [notifyAvailable_cell, if_neg hb]

theorem Grows.forwardTo {i v : Addr} (hun : h.isAvailable i = false) :
    Grows h (h.forwardTo i v).1 := by
  refine ⟨by simp, fun b _ => by simp, fun b _ => by simp, fun b _ hv => ?_⟩
  have hb : b ≠ i := fun he => by rw [he, hun] at hv; cases hv
  rw [forwardTo_state, if_neg fun hc => hb hc.1]

end Grows

/-! ## Well-formed heaps -/

/-- The heap is well formed: what lies beyond `next` is unused, an indirect value that points
somewhere is alive and available and points at a concrete value with its state and type, every
living available indirect value does, and an available value has no waiters. -/
structure Wf (h : Heap V E κ) : Prop where
  unused : ∀ a, h.next ≤ a → h.refs a = 0
  points : ∀ i t, (h.cell i).mValue = some t →
    (h.cell i).mKind = .kIndirect ∧ h.isAvailable i = true ∧ 0 < h.refs i ∧
    (h.cell t).mKind = .kConcrete ∧ (h.cell t).state = (h.cell i).state ∧
    (h.cell t).mTypeId = (h.cell i).mTypeId
  resolved : ∀ i, (h.cell i).mKind = .kIndirect → h.isAvailable i = true → 0 < h.refs i →
    (h.cell i).mValue ≠ none
  quiet : ∀ a, h.isAvailable a = true → (h.cell a).waiters = []

/-- A well-formed heap whose counts are right. -/
structure Ok (own : κ → Addr → Nat) (h : Heap V E κ) (X : Addr → Nat) : Prop where
  wf : h.Wf
  acc : Accounted own h X

section Rules

variable {own : κ → Addr → Nat} {h : Heap V E κ} {X : Addr → Nat} {a : Addr} {k : Nat}

theorem Wf.lt_next (hw : h.Wf) (ha : 0 < h.refs a) : a < h.next := by
  refine Nat.lt_of_not_le fun hle => ?_
  rw [hw.unused a hle] at ha
  exact Nat.lt_irrefl 0 ha

theorem Ok.congr {Y : Addr → Nat} (hk : h.Ok own X) (he : X = Y) : h.Ok own Y := he ▸ hk

/-- A held reference keeps its value alive. -/
theorem Ok.pos (hk : h.Ok own X) (hx : 0 < X a) : 0 < h.refs a := by
  rw [hk.acc a]; omega

/-- An indirect value keeps the value it points at alive. -/
theorem Ok.pos_of_points (hk : h.Ok own X) {i t : Addr} (hm : (h.cell i).mValue = some t) :
    0 < h.refs t ∧ t ≠ i ∧ 0 < h.pointing t := by
  obtain ⟨hk1, -, hr, hk2, -, -⟩ := hk.wf.points i t hm
  have hp : 0 < h.pointing t := by
    unfold pointing
    rw [Finset.sum_apply]
    refine Nat.lt_of_lt_of_le ?_ (Finset.single_le_sum (fun _ _ => Nat.zero_le _)
      (Finset.mem_range.mpr (hk.wf.lt_next hr)))
    simp [hm]
  refine ⟨by rw [hk.acc t]; omega, fun he => ?_, hp⟩
  rw [he, hk1] at hk2
  cases hk2

theorem pointing_eq_card (x : Addr) : h.pointing x =
    ((Finset.range h.next).filter fun i => (h.cell i).mValue = some x).card := by
  unfold pointing
  rw [Finset.sum_apply, Finset.card_filter]
  refine Finset.sum_congr rfl fun i _ => ?_
  cases hm : (h.cell i).mValue with
  | none => rfl
  | some t => simp [Pi.single_apply, eq_comm]

theorem pointing_addRef (k : Nat) : (h.addRef a k).pointing = h.pointing :=
  sum_modify_same h a (fun c => c.mValue.elim 0 fun t => Pi.single t 1) _ rfl

theorem pointing_decRef (k : Nat) : (h.decRef a k).pointing = h.pointing :=
  sum_modify_same h a (fun c => c.mValue.elim 0 fun t => Pi.single t 1) _ rfl

/-- A heap without values. -/
def empty : Heap V E κ := ⟨fun _ => ⟨.kConcrete, 0, 0, .kUnconstructed, [], none, none⟩, 0⟩

theorem Ok.empty : (Heap.empty : Heap V E κ).Ok own 0 where
  wf := by
    refine ⟨fun _ _ => rfl, fun i t h => ?_, fun i h => ?_, fun _ _ => rfl⟩
    · cases h
    · cases h
  acc := fun _ => rfl

/-- `AddRef` by a holder of the value. -/
theorem Ok.addRef (hk : h.Ok own X) (ha : 0 < h.refs a) (k : Nat) :
    (h.addRef a k).Ok own (X + Pi.single a k) := by
  have hpos : ∀ x, 0 < (h.addRef a k).refs x ↔ 0 < h.refs x := by
    intro x
    rw [refs_addRef, Pi.single_apply]
    split
    · rename_i hx; subst hx; omega
    · simp
  refine ⟨⟨fun x hx => ?_, fun i t hm => ?_, fun i h1 h2 h3 => ?_, fun x hx => ?_⟩, fun x => ?_⟩
  · have := hk.wf.unused x hx
    have := hpos x
    omega
  · simp only [isAvailable, addRef_cell] at hm ⊢
    obtain ⟨h1, h2, h3, h4⟩ := hk.wf.points i t hm
    exact ⟨h1, h2, (hpos i).mpr h3, h4⟩
  · simp only [isAvailable, addRef_cell] at h1 h2 ⊢
    exact hk.wf.resolved i h1 h2 ((hpos i).mp h3)
  · simp only [isAvailable, addRef_cell] at hx ⊢
    exact hk.wf.quiet x hx
  · rw [refs_addRef, hk.acc x, waiting_addRef, pointing_addRef, Pi.add_apply]
    omega

/-- A drop that is not the last one, or whose value points nowhere. -/
theorem Ok.decRef (hk : h.Ok own (X + Pi.single a k)) (ha : 0 < h.refs a)
    (hl : k < h.refs a ∨ (h.cell a).mValue = none) : (h.decRef a k).Ok own X := by
  have hle : k ≤ h.refs a := by
    have := hk.acc a
    simp only [Pi.add_apply, Pi.single_eq_same] at this
    omega
  have hpos : ∀ x, 0 < (h.decRef a k).refs x → 0 < h.refs x := by
    intro x hx
    rw [refs_decRef] at hx
    omega
  refine ⟨⟨fun x hx => ?_, fun i t hm => ?_, fun i h1 h2 h3 => ?_, fun x hx => ?_⟩, fun x => ?_⟩
  · have := hk.wf.unused x hx
    rw [refs_decRef]
    omega
  · simp only [isAvailable, decRef_cell] at hm ⊢
    obtain ⟨h1, h2, h3, h4⟩ := hk.wf.points i t hm
    refine ⟨h1, h2, ?_, h4⟩
    rw [refs_decRef, Pi.single_apply]
    split
    · rename_i hi
      subst hi
      have := hl.resolve_right (by rw [hm]; simp)
      omega
    · exact h3
  · simp only [isAvailable, decRef_cell] at h1 h2 ⊢
    exact hk.wf.resolved i h1 h2 (hpos i h3)
  · simp only [isAvailable, decRef_cell] at hx ⊢
    exact hk.wf.quiet x hx
  · have hx := hk.acc x
    rw [Pi.add_apply] at hx
    rw [refs_decRef, hx, waiting_decRef, pointing_decRef]
    omega

/-- The destructor of an indirect value: its pointer is cleared and its target dropped. -/
theorem Ok.destroyIndirect (hk : h.Ok own (X + Pi.single a k)) {t : Addr} (hr : h.refs a = k)
    (hm : (h.cell a).mValue = some t) :
    (((h.decRef a k).modify a fun c => { c with mValue := none }).decRef t 1).Ok own X := by
  obtain ⟨ht, hta, hpt⟩ := hk.pos_of_points hm
  obtain ⟨-, -, ha, htk, -, -⟩ := hk.wf.points a t hm
  set h₁ := (h.decRef a k).modify a fun c => { c with mValue := none } with hh₁
  have hcell : ∀ b, h₁.cell b = { h.cell b with
      mRefCount := (h.decRef a k).refs b, mValue := if b = a then none else (h.cell b).mValue } := by
    intro b
    rw [hh₁, modify_cell, decRef_cell, decRef_cell]
    split
    · rename_i hb; subst hb; rfl
    · rfl
  have hrefs : ∀ b, h₁.refs b = if b = a then 0 else h.refs b := by
    intro b
    unfold refs
    rw [hcell b]
    simp only [refs_decRef, Pi.single_apply]
    split
    · rename_i hb; subst hb; omega
    · simp [refs]
  have hpoint : ∀ x, h₁.pointing x + (Pi.single t 1 : Addr → Nat) x = h.pointing x := by
    intro x
    have hs := sum_modify (h.decRef a k) a
      (fun c => c.mValue.elim 0 fun t => (Pi.single t 1 : Addr → Nat))
      (fun c => { c with mValue := none }) (hk.wf.lt_next ha)
    have hs' := congrFun hs x
    simp only [decRef_cell, hm, Option.elim_some, Option.elim_none, Pi.add_apply,
      Pi.zero_apply, add_zero] at hs'
    exact hs'
  have hwait : ∀ x, waiting (Waiter.refs own) h₁ x = waiting (Waiter.refs own) h x := fun x =>
    congrFun ((sum_modify_same (h.decRef a k) a (fun c => (c.waiters.map (Waiter.refs own)).sum)
      (fun c => { c with mValue := none }) rfl).trans (waiting_decRef _ k)) x
  have hk₁ : h₁.Ok own (X + Pi.single t 1) := by
    refine ⟨⟨fun x hx => ?_, fun i u hmi => ?_, fun i h1 h2 h3 => ?_, fun x hx => ?_⟩, fun x => ?_⟩
    · have := hk.wf.unused x hx
      rw [hrefs]
      split <;> omega
    · simp only [isAvailable, hcell] at hmi ⊢
      split at hmi
      · cases hmi
      · rename_i hia
        obtain ⟨h1, h2, h3, h4⟩ := hk.wf.points i u hmi
        refine ⟨h1, h2, ?_, h4⟩
        rw [hrefs, if_neg hia]
        exact h3
    · simp only [isAvailable, hcell] at h1 h2 ⊢
      rw [hrefs] at h3
      split at h3
      · omega
      · rename_i hia
        rw [if_neg hia]
        exact hk.wf.resolved i h1 h2 h3
    · simp only [isAvailable, hcell] at hx ⊢
      exact hk.wf.quiet x hx
    · have hx := hk.acc x
      have hp := hpoint x
      rw [hrefs, hwait, Pi.add_apply]
      rw [Pi.add_apply, Pi.single_apply] at hx
      split
      · rename_i hxa
        subst hxa
        rw [if_pos rfl] at hx
        omega
      · rename_i hxa
        rw [if_neg hxa] at hx
        omega
  refine hk₁.decRef (by rw [hrefs, if_neg hta]; exact ht) (.inr ?_)
  -- the target is concrete, so it points nowhere
  rw [hcell, if_neg hta]
  cases hmt : (h.cell t).mValue with
  | none => rfl
  | some u =>
    have := (hk.wf.points t u hmt).1
    rw [htk] at this
    cases this

/-- `DropRef` of held references. -/
theorem Ok.dropRef (hk : h.Ok own (X + Pi.single a k)) (ha : 0 < h.refs a) :
    (h.dropRef a k).Ok own X := by
  unfold Heap.dropRef
  simp only
  split
  · rename_i hr
    split
    · rename_i t _ hm
      exact hk.destroyIndirect hr hm
    · rename_i hne
      refine hk.decRef ha (.inr ?_)
      cases hm : (h.cell a).mValue with
      | none => rfl
      | some t => exact (hne t (hk.wf.points a t hm).1 hm).elim
  · rename_i hr
    have := hk.acc a
    simp only [Pi.add_apply, Pi.single_eq_same] at this
    exact hk.decRef ha (.inl (by omega))

/-- A new value, whose references go to the program. -/
theorem Ok.alloc (hk : h.Ok own X) {c : Cell V E κ} (hm : c.mValue = none) (hw : c.waiters = [])
    (hi : c.mKind = .kIndirect → c.state.isAvailable = false) :
    (h.alloc c).Ok own (X + Pi.single h.next c.mRefCount) := by
  have hcell : ∀ b, (h.alloc c).cell b = if b = h.next then c else h.cell b := fun b => by
    simp only [Heap.alloc, Function.update_apply]
  have hnext : ∀ i t, (h.cell i).mValue = some t → i ≠ h.next ∧ t ≠ h.next := by
    intro i t hmt
    exact ⟨Nat.ne_of_lt (hk.wf.lt_next (hk.wf.points i t hmt).2.2.1),
      Nat.ne_of_lt (hk.wf.lt_next (hk.pos_of_points hmt).1)⟩
  refine ⟨⟨fun x hx => ?_, fun i t hmt => ?_, fun i h1 h2 h3 => ?_, fun x hx => ?_⟩, fun x => ?_⟩
  · simp only [Heap.alloc] at hx
    rw [refs, hcell, if_neg (Nat.ne_of_gt hx)]
    exact hk.wf.unused x (Nat.le_of_succ_le hx)
  · simp only [isAvailable, refs, hcell] at hmt ⊢
    split at hmt
    · rw [hm] at hmt; cases hmt
    · obtain ⟨h1, h2⟩ := hnext i t hmt
      rw [if_neg h1, if_neg h2]
      exact hk.wf.points i t hmt
  · simp only [isAvailable, refs, hcell] at h1 h2 h3 ⊢
    split at h1
    · rename_i hin
      rw [if_pos hin, hi h1] at h2
      cases h2
    · rename_i hin
      rw [if_neg hin] at h2 h3 ⊢
      exact hk.wf.resolved i h1 h2 h3
  · simp only [isAvailable, hcell] at hx ⊢
    split
    · exact hw
    · rename_i hxn
      rw [if_neg hxn] at hx
      exact hk.wf.quiet x hx
  · have hp : (h.alloc c).pointing = h.pointing := by
      unfold pointing Heap.alloc
      simp only
      rw [Finset.sum_range_succ, Function.update_self, hm, Option.elim_none, add_zero]
      exact Finset.sum_congr rfl fun b hb => by
        rw [Function.update_of_ne (Nat.ne_of_lt (Finset.mem_range.mp hb))]
    rw [waiting_alloc _ c hw, hp, refs, hcell, Pi.add_apply, Pi.single_apply]
    split
    · rename_i hxn
      subst hxn
      have := hk.acc h.next
      rw [hk.wf.unused _ (Nat.le_refl _)] at this
      omega
    · have := hk.acc x
      rw [refs] at this
      omega

/-- `AndThen`: the closure's references go into the list, or come back with the closure. -/
theorem Ok.andThen {w : Waiter κ} (hk : h.Ok own (X + w.refs own)) (ha : a < h.next) :
    (h.andThen a w).1.Ok own (X + ((h.andThen a w).2.map (Waiter.refs own)).sum) := by
  have hwait := waiting_andThen (Waiter.refs own) w ha
  unfold Heap.andThen at hwait ⊢
  split
  · simpa using hk
  · rename_i hav
    rw [if_neg hav] at hwait
    simp only [List.map_nil, List.sum_nil, add_zero] at hwait ⊢
    set h₁ := h.modify a fun c => { c with waiters := w :: c.waiters } with hh₁
    have hcell : ∀ b, h₁.cell b =
        { h.cell b with waiters := if b = a then w :: (h.cell a).waiters else (h.cell b).waiters } := by
      intro b
      rw [hh₁, modify_cell]
      split
      · rename_i hb; subst hb; rfl
      · rfl
    have hrefs : ∀ b, h₁.refs b = h.refs b := fun b => by rw [refs, hcell]; rfl
    refine ⟨⟨fun x hx => ?_, fun i t hm => ?_, fun i h1 h2 h3 => ?_, fun x hx => ?_⟩, fun x => ?_⟩
    · rw [hrefs]; exact hk.wf.unused x hx
    · simp only [isAvailable, hcell, hrefs] at hm ⊢
      exact hk.wf.points i t hm
    · simp only [isAvailable, hcell, hrefs] at h1 h2 h3 ⊢
      exact hk.wf.resolved i h1 h2 h3
    · simp only [isAvailable, hcell] at hx ⊢
      split
      · rename_i hxa
        subst hxa
        exact absurd hx hav
      · exact hk.wf.quiet x hx
    · have hx := hk.acc x
      have hp : h₁.pointing = h.pointing :=
        sum_modify_same h a (fun c => c.mValue.elim 0 fun t => Pi.single t 1) _ rfl
      rw [hrefs, hx, hwait, hp, Pi.add_apply, Pi.add_apply]
      omega

/-- The exchange that makes a value available: `mv` and `ty` are what the value now points at and
its type. The references of its waiters come back. -/
theorem Ok.publish (hk : h.Ok own X) (ha : a < h.next) (st : State) (mv : Option Addr) (ty : Nat)
    (hun : h.isAvailable a = false) (hst : st.isAvailable = true)
    (hmv : match mv with
      | none => (h.cell a).mKind = .kConcrete ∧ ty = (h.cell a).mTypeId
      | some t => (h.cell a).mKind = .kIndirect ∧ 0 < h.refs a ∧ (h.cell t).mKind = .kConcrete ∧
          (h.cell t).state = st ∧ (h.cell t).mTypeId = ty ∧ t ≠ a)
    (Y : Addr → Nat) (hX : X = Y + mv.elim 0 fun t => Pi.single t 1) :
    (h.modify a fun c => { c with mValue := mv, mTypeId := ty, state := st, waiters := [] }).Ok own
      (Y + ((h.cell a).waiters.map (Waiter.refs own)).sum) := by
  -- nothing pointed at `a` or from `a` while it was unavailable
  have hfrom : (h.cell a).mValue = none := by
    cases hm : (h.cell a).mValue with
    | none => rfl
    | some t =>
      have := (hk.wf.points a t hm).2.1
      rw [hun] at this
      cases this
  have hto : ∀ i, (h.cell i).mValue ≠ some a := by
    intro i hm
    obtain ⟨-, h2, -, -, h5, -⟩ := hk.wf.points i a hm
    rw [isAvailable] at hun h2
    rw [h5, h2] at hun
    cases hun
  set h₁ := h.modify a fun c =>
    { c with mValue := mv, mTypeId := ty, state := st, waiters := [] } with hh₁
  have hcell : ∀ b, h₁.cell b = if b = a then
      { h.cell a with mValue := mv, mTypeId := ty, state := st, waiters := [] } else h.cell b :=
    fun b => modify_cell h a _ b
  have hrefs : ∀ b, h₁.refs b = h.refs b := by
    intro b
    rw [refs, hcell]
    split
    · rename_i hb; subst hb; rfl
    · rfl
  refine ⟨⟨fun x hx => ?_, fun i t hm => ?_, fun i h1 h2 h3 => ?_, fun x hx => ?_⟩, fun x => ?_⟩
  · rw [hrefs]; exact hk.wf.unused x hx
  · simp only [isAvailable, hcell, hrefs] at hm ⊢
    by_cases hia : i = a
    · subst hia
      rw [if_pos rfl] at hm
      simp only at hm
      subst hm
      obtain ⟨h1, h2, h3, h4, h5, h6⟩ := hmv
      simp only [↓reduceIte, if_neg h6]
      exact ⟨h1, hst, h2, h3, h4, h5⟩
    · rw [if_neg hia] at hm
      have hta : t ≠ a := fun he => hto i (he ▸ hm)
      simp only [if_neg hia, if_neg hta]
      exact hk.wf.points i t hm
  · simp only [isAvailable, hcell, hrefs] at h1 h2 h3 ⊢
    by_cases hia : i = a
    · subst hia
      simp only [↓reduceIte] at h1 ⊢
      cases mv with
      | none => rw [hmv.1] at h1; cases h1
      | some t => simp
    · rw [if_neg hia] at h1 h2 ⊢
      exact hk.wf.resolved i h1 h2 h3
  · simp only [isAvailable, hcell] at hx ⊢
    split
    · rfl
    · rename_i hxa
      rw [if_neg hxa] at hx
      exact hk.wf.quiet x hx
  · have hw := congrFun (sum_modify h a (fun c => (c.waiters.map (Waiter.refs own)).sum)
      (fun c => { c with mValue := mv, mTypeId := ty, state := st, waiters := [] }) ha) x
    have hp := congrFun (sum_modify h a
      (fun c => c.mValue.elim 0 fun t => (Pi.single t 1 : Addr → Nat))
      (fun c => { c with mValue := mv, mTypeId := ty, state := st, waiters := [] }) ha) x
    simp only [hfrom, Option.elim_none, List.map_nil, List.sum_nil, add_zero] at hw hp
    simp only [Pi.add_apply] at hw hp
    have hx := hk.acc x
    rw [hX, Pi.add_apply] at hx
    rw [hrefs, Pi.add_apply]
    unfold waiting pointing at *
    simp only [hh₁, modify_next]
    omega

theorem modify_congr {f g : Cell V E κ → Cell V E κ} (he : f (h.cell a) = g (h.cell a)) :
    h.modify a f = h.modify a g := by
  unfold modify
  rw [he]

/-- A drop leaves the counts of other values alone. -/
theorem refs_dropRef_of_ne {x : Addr} (hx : x ≠ a) (hm : (h.cell a).mValue ≠ some x) :
    (h.dropRef a k).refs x = h.refs x := by
  have h1 : (h.decRef a k).refs x = h.refs x := by
    rw [refs_decRef, Pi.single_eq_of_ne hx, Nat.sub_zero]
  unfold dropRef
  simp only
  split
  · split
    · rename_i t _ hmt
      have hxt : x ≠ t := fun he => hm (he ▸ hmt)
      rw [refs_decRef, Pi.single_eq_of_ne hxt, Nat.sub_zero, refs, modify_cell, if_neg hx]
      exact h1
    · exact h1
  · exact h1

/-- The exchange of `NotifyAvailable` on a concrete value. -/
theorem Ok.notifyAvailable (hk : h.Ok own X) (ha : a < h.next) {st : State}
    (hc : (h.cell a).mKind = .kConcrete) (hun : h.isAvailable a = false)
    (hst : st.isAvailable = true) :
    (h.notifyAvailable a st).1.Ok own
      (X + ((h.notifyAvailable a st).2.map (Waiter.refs own)).sum) := by
  have hm : (h.cell a).mValue = none := by
    cases hm : (h.cell a).mValue with
    | none => rfl
    | some t =>
      have := (hk.wf.points a t hm).1
      rw [hc] at this
      cases this
  have := hk.publish ha st none (h.cell a).mTypeId hun hst ⟨hc, rfl⟩ X (by simp)
  rw [modify_congr (g := fun c => { c with state := st, waiters := [] }) (by rw [← hm])] at this
  exact this

/-- What is behind an available value: a concrete value in the same state, to which the reference
now belongs. Unavailable values are not touched. -/
theorem Ok.shorten {v : Addr} (hk : h.Ok own (X + Pi.single v 1)) (hv : h.isAvailable v = true) :
    (h.shorten v).1.Ok own (X + Pi.single (h.shorten v).2 1) ∧
    ((h.shorten v).1.cell (h.shorten v).2).mKind = .kConcrete ∧
    ((h.shorten v).1.cell (h.shorten v).2).state = (h.cell v).state ∧
    ∀ i, h.isAvailable i = false → i ≠ (h.shorten v).2 ∧
      ((h.shorten v).1.cell i).mKind = (h.cell i).mKind ∧
      ((h.shorten v).1.cell i).state = (h.cell i).state ∧
      (h.shorten v).1.refs i = h.refs i := by
  have hpos : 0 < h.refs v := hk.pos (by simp)
  have hne : ∀ i, h.isAvailable i = false → ∀ t, h.isAvailable t = true → i ≠ t := by
    intro i hi t ht he
    subst he
    rw [hi] at ht
    cases ht
  unfold Heap.shorten
  split
  · rename_i t hkind hm
    obtain ⟨-, -, -, htk, hts, -⟩ := hk.wf.points v t hm
    obtain ⟨htpos, htv, -⟩ := hk.pos_of_points hm
    have htav : h.isAvailable t = true := by rw [isAvailable, hts]; exact hv
    have hk' : (h.addRef t 1).Ok own ((X + Pi.single t 1) + Pi.single v 1) :=
      (hk.addRef htpos 1).congr (by abel)
    refine ⟨hk'.dropRef (by rw [refs_addRef]; omega), ?_, ?_, fun i hi => ⟨hne i hi t htav, ?_, ?_, ?_⟩⟩
    · simpa using htk
    · simpa using hts
    · simp
    · simp
    · have h1 := hne i hi v hv
      have h2 := hne i hi t htav
      rw [refs_dropRef_of_ne h1 (by simpa [hm] using Ne.symm h2),
        refs_addRef, Pi.single_eq_of_ne h2, Nat.add_zero]
  · rename_i hno
    refine ⟨hk, ?_, rfl, fun i hi => ⟨hne i hi v hv, rfl, rfl, rfl⟩⟩
    cases hkv : (h.cell v).mKind with
    | kConcrete => rfl
    | kIndirect =>
      cases hm : (h.cell v).mValue with
      | none => exact absurd hm (hk.wf.resolved v hkv hv hpos)
      | some t => exact (hno t hkv hm).elim

/-- `ForwardTo` on an unresolved indirect value: one reference to the target is taken over, the
references of the closures that run now come back. -/
theorem Ok.forwardTo {i v : Addr} (hk : h.Ok own (X + Pi.single v 1))
    (hi : (h.cell i).mKind = .kIndirect) (hun : h.isAvailable i = false) (hpos : 0 < h.refs i) :
    (h.forwardTo i v).1.Ok own (X + ((h.forwardTo i v).2.map (Waiter.refs own)).sum) := by
  have hin : i < h.next := hk.wf.lt_next hpos
  have hvn : v < h.next := hk.wf.lt_next (hk.pos (by simp))
  unfold Heap.forwardTo
  split
  · rename_i hv
    obtain ⟨hk', htk, hts, hrest⟩ := hk.shorten hv
    obtain ⟨h1, h2, h3, h4⟩ := hrest i hun
    set h₁ := (h.shorten v).1
    set t := (h.shorten v).2
    have hun' : h₁.isAvailable i = false := by rw [isAvailable, h3]; exact hun
    have hw : (h₁.cell i).waiters = ((h₁.modify i fun c => { c with
        mValue := some t, mTypeId := (h₁.cell t).mTypeId }).cell i).waiters := by
      rw [modify_cell, if_pos rfl]
    have hp := hk'.publish (by simpa [h₁] using hin) (h.cell v).state (some t)
      (h₁.cell t).mTypeId hun' hv
      ⟨by rw [h2, hi], by rw [h4]; exact hpos, htk, hts, rfl, Ne.symm h1⟩ X (by simp)
    simp only [Heap.notifyAvailable]
    rw [← hw]
    have he : (h₁.modify i fun c => { c with mValue := some t, mTypeId := (h₁.cell t).mTypeId }).modify
        i (fun c => { c with state := (h.cell v).state, waiters := [] }) =
        h₁.modify i fun c => { c with
          mValue := some t, mTypeId := (h₁.cell t).mTypeId, state := (h.cell v).state,
          waiters := [] } := by
      simp [modify]
    rw [he]
    exact hp
  · refine Ok.andThen ?_ (by simpa using hvn)
    refine (hk.addRef hpos 1).congr ?_
    simp only [Waiter.refs]
    abel

end Rules

end Heap

end AsyncValue

end AsyncLib
