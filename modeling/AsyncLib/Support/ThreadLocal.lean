import AsyncLib.Lib.Probing
import AsyncLib.Lib.System

/-!
# `ThreadLocal`

`async/support/thread_local.h`. The threads are the elements of any type, with any hash function; a
thread makes one call of `Local` at a time. Each atomic access is one step, and so are the store to
`mData` and `SpilledLocal`, which holds the mutex. An entry is its address: an index of `mData`, or a
node of `mSpilled`.

The capacity is a `size_t`, and the loops over it count in an `int`. The loop of the constructor
overflows for a capacity of `2^31` or more (`construct`); for a smaller one an index of a slot is an
`int`. `mNumLockFreeEntries` is a word of 32 bits, which is compared with the capacity as a `size_t`
(`toSize`).

* `Pc.failed`: a failed assertion, a null pointer, or an index that is out of range.
* `St.returns`: the calls that have returned, each with its thread and its entry.
* `local_correct`: a thread always gets the same entry, no two threads get the same one, nothing
  fails, and `ForEach` visits the entry of each thread once, if and only if the capacity is below
  `2^31`. In the runs considered, the counter does not come back to zero (`Fits`).
-/

namespace AsyncLib

namespace ThreadLocal

open Sys Probing

variable {τ : Type}

/-! ## The code -/

/-- The address of an entry. -/
inductive Ref where
  | data (i : Nat)
  | spilled (k : Nat)
  deriving DecidableEq, Repr

/-- Where a thread is in `Local`. -/
inductive Pc where
  | idle
  /-- `mPtrs[idx].load()` in the condition of the first loop. -/
  | probe (idx : Nat)
  /-- The second load, and the comparison of the thread ids. -/
  | entry (idx : Nat)
  /-- `mNumLockFreeEntries.load()`. -/
  | check (idx : Nat)
  | fetchAdd (idx : Nat)
  /-- The store to `mData[insertionIndex]`. -/
  | store (insertionIdx insertionIndex : Nat)
  /-- `mPtrs[idx].load()` in the condition of the inner loop. -/
  | scan (insertionIdx insertionIndex idx : Nat) (empty : Option Nat)
  | cas (insertionIdx insertionIndex idx : Nat) (empty : Option Nat)
  /-- `SpilledLocal`. -/
  | spill
  | failed
  deriving DecidableEq, Repr

/-- The members of a `ThreadLocal`. -/
structure Mem (τ : Type) where
  /-- The `thread_id` of each entry. -/
  mData : List (Option τ)
  /-- Indices of `mData`. -/
  mPtrs : List (Option Nat)
  /-- The word of the `int`. -/
  mNumLockFreeEntries : Nat
  /-- The threads of the entries, in the order in which they were added. -/
  mSpilled : List τ

/-- The members, the threads, and the calls that have returned. -/
structure St (τ : Type) extends Mem τ where
  threads : τ → Pc
  returns : List (τ × Ref)

/-- A thread calls `Local`, or takes its next step. -/
inductive Label (τ : Type) where
  /-- `Local` is called, and computes `start_idx`. -/
  | call (t : τ)
  /-- The next step of a call; `spurious` if a compare-exchange fails for no reason. -/
  | step (t : τ) (spurious : Bool)

/-- The word of an `int` as a `size_t`. -/
def toSize (w : Nat) : Nat := if w < 2 ^ 31 then w else w + (2 ^ 64 - 2 ^ 32)

section Code

variable [DecidableEq τ] (mCapacity : Nat) (hash : τ → Nat)

/-- Thread `t` goes on at `pc`. -/
def St.goto (s : St τ) (t : τ) (pc : Pc) : St τ :=
  { s with threads := Function.update s.threads t pc }

/-- `Local` returns. -/
def St.ret (s : St τ) (t : τ) (entry : Ref) : St τ :=
  { s with threads := Function.update s.threads t .idle, returns := s.returns ++ [(t, entry)] }

/-- The entry that a slot points to, and its thread. -/
def Mem.entryAt (m : Mem τ) (idx : Nat) : Option (Nat × τ) := do
  let p ← (← m.mPtrs[idx]?)
  let owner ← (← m.mData[p]?)
  pure (p, owner)

/-- `SpilledLocal`. -/
def spilledLocal (s : St τ) (t : τ) : St τ :=
  match s.mSpilled.findIdx? (· = t) with
  | some k => s.ret t (.spilled k)
  | none => { s with mSpilled := s.mSpilled ++ [t] }.ret t (.spilled s.mSpilled.length)

/-- The next step of thread `t`, which is at `pc`. -/
def next (s : St τ) (t : τ) (spurious : Bool) : Pc → Option (St τ)
  | .idle | .failed => none
  | .probe idx =>
    match s.mPtrs[idx]? with
    | some none => some (s.goto t (.check idx))
    | some (some _) => some (s.goto t (.entry idx))
    | none => some (s.goto t .failed)
  | .entry idx =>
    match s.entryAt idx with
    | some (p, owner) =>
      if owner = t then some (s.ret t (.data p))
      else if nextSlot mCapacity idx = hash t % mCapacity then
        some (s.goto t (.check (nextSlot mCapacity idx)))
      else some (s.goto t (.probe (nextSlot mCapacity idx)))
    | none => some (s.goto t .failed)
  | .check idx =>
    if mCapacity ≤ toSize s.mNumLockFreeEntries then some (s.goto t .spill)
    else some (s.goto t (.fetchAdd idx))
  | .fetchAdd idx =>
    let s' := { s with mNumLockFreeEntries := (s.mNumLockFreeEntries + 1) % 2 ^ 32 }
    if mCapacity ≤ toSize s.mNumLockFreeEntries then some (s'.goto t .spill)
    else some (s'.goto t (.store idx s.mNumLockFreeEntries))
  | .store insertionIdx i =>
    if i < s.mData.length then
      some ({ s with mData := s.mData.set i (some t) }.goto t (.scan insertionIdx i insertionIdx none))
    else some (s.goto t .failed)
  | .scan insertionIdx i idx empty =>
    match s.mPtrs[idx]? with
    | some none => some (s.goto t (.cas insertionIdx i idx empty))
    | some (some _) =>
      -- The assertion.
      if nextSlot mCapacity idx = insertionIdx then some (s.goto t .failed)
      else some (s.goto t (.scan insertionIdx i (nextSlot mCapacity idx) empty))
    | none => some (s.goto t .failed)
  | .cas insertionIdx i idx empty =>
    match s.mPtrs[idx]? with
    | some p =>
      if p = empty ∧ spurious = false then
        some ({ s with mPtrs := s.mPtrs.set idx (some i) }.ret t (.data i))
      -- The failed compare-exchange stores what it found in `empty`.
      else some (s.goto t (.scan insertionIdx i insertionIdx p))
    | none => some (s.goto t .failed)
  | .spill => some (spilledLocal s t)

/-- A step of a thread. -/
def step (s : St τ) : Label τ → Option (St τ)
  | .call t =>
    if s.threads t = .idle then
      if mCapacity = 0 then some (s.goto t .spill)
      else some (s.goto t (.probe (hash t % mCapacity)))
    else none
  | .step t spurious => next mCapacity hash s t spurious (s.threads t)

/-- A new `ThreadLocal`, and no call. -/
def init : St τ where
  mData := List.replicate mCapacity none
  mPtrs := List.replicate mCapacity none
  mNumLockFreeEntries := 0
  mSpilled := []
  threads := fun _ => .idle
  returns := []

/-- The loop of the constructor, from `i` on: `none` if `++i` overflows. -/
def clearPtrs (i : Nat) (ptrs : List (Option Nat)) : Option (List (Option Nat)) :=
  if i < mCapacity then
    if i + 1 < 2 ^ 31 then clearPtrs (i + 1) (ptrs.set i none) else none
  else some ptrs
termination_by mCapacity - i

/-- The constructor. -/
def construct : Option (St τ) :=
  (clearPtrs mCapacity 0 (List.replicate mCapacity none)).map fun ptrs =>
    { (init mCapacity : St τ) with mPtrs := ptrs }

/-- The system of all threads, from the state `s₀` that the constructor leaves. -/
def sys (s₀ : St τ) : Sys (St τ) (Label τ) := ofFun s₀ (step mCapacity hash)

/-- What the next step of a thread adds to the counter. -/
def Pc.adds : Pc → Nat
  | .fetchAdd _ => 1
  | _ => 0

/-- The counter does not come back to zero. -/
def Fits (s : St τ) : Label τ → Prop
  | .call _ => True
  | .step t _ => s.mNumLockFreeEntries + (s.threads t).adds < 2 ^ 32

instance (s : St τ) : (l : Label τ) → Decidable (Fits s l)
  | .call _ => inferInstanceAs (Decidable True)
  | .step _ _ => inferInstanceAs (Decidable (_ < _))

/-- What the slots show to `ForEach`, or `none` for a null pointer. -/
def visitPtrs (m : Mem τ) : List (Option Nat) → Option (List (τ × Ref))
  | [] => some []
  | none :: ptrs => visitPtrs m ptrs
  | some p :: ptrs => do
    let owner ← (← m.mData[p]?)
    let visited ← visitPtrs m ptrs
    pure ((owner, .data p) :: visited)

/-- The threads and the entries that `ForEach` visits. -/
def forEach (m : Mem τ) : Option (List (τ × Ref)) := do
  let visited ← visitPtrs m m.mPtrs
  if toSize m.mNumLockFreeEntries < mCapacity then pure visited
  else pure (visited ++ m.mSpilled.zipIdx.map fun (t, k) => (t, .spilled k))

end Code

/-! ## The table -/

section Table

variable (n : Nat) (hash : τ → Nat) (m : Mem τ)

/-- The slot `j` points to the entry `p`. -/
def Mem.Slot (j p : Nat) : Prop := m.mPtrs[j]? = some (some p)

/-- The entry `p` has been stored, for the thread `t`. -/
def Mem.Owns (t : τ) (p : Nat) : Prop := m.mData[p]? = some (some t)

/-- No slot points to an entry of `t`. -/
def Mem.Absent (t : τ) : Prop := ∀ j p, m.Slot j p → ¬ m.Owns t p

/-- The entry of `t` is found again. -/
def Mem.Has (t : τ) : Ref → Prop
  | .data p => (∃ j, m.Slot j p) ∧ m.Owns t p
  | .spilled k => m.mSpilled[k]? = some t

/-- What is true of the members: each slot that is in use is found from the hash of its thread. -/
structure Table : Prop where
  ptrs : m.mPtrs.length = n
  data : m.mData.length = n
  placed : ∀ j p, m.Slot j p → p < m.mNumLockFreeEntries ∧
    ∃ t, m.Owns t p ∧ Placed m.mPtrs (hash t % n) j
  once : ∀ i j p, m.Slot i p → m.Slot j p → i = j
  unique : ∀ i j p q t, m.Slot i p → m.Slot j q → m.Owns t p → m.Owns t q → p = q
  nodup : m.mSpilled.Nodup
  full : m.mSpilled ≠ [] → n ≤ m.mNumLockFreeEntries
  spilled : ∀ t ∈ m.mSpilled, m.Absent t

/-- The first `d` slots of the search of `t` show entries of other threads. -/
def Passed (t : τ) (d : Nat) : Prop :=
  ∀ k < d, ∃ p u, m.Slot (probe n (hash t % n) k) p ∧ m.Owns u p ∧ u ≠ t

/-- The search of `t` is at `idx`. -/
def Searching (t : τ) (idx : Nat) : Prop :=
  ∃ d < n, probe n (hash t % n) d = idx ∧ Passed n hash m t d

/-- The search of `t` has ended at `insertionIdx`, and `t` has the index `i` for its entry. -/
structure Inserting (t : τ) (insertionIdx i : Nat) : Prop where
  placed : Placed m.mPtrs (hash t % n) insertionIdx
  absent : m.Absent t
  not_spilled : t ∉ m.mSpilled
  lt : i < n
  counted : i < m.mNumLockFreeEntries
  free : ∀ j, ¬ m.Slot j i

/-- What is true of the thread `t`, by where it is. -/
def PcOk (t : τ) : Pc → Prop
  | .idle => True
  | .probe idx => Searching n hash m t idx
  | .entry idx => Searching n hash m t idx ∧ ∃ p, m.Slot idx p
  | .check idx => Placed m.mPtrs (hash t % n) idx ∧ m.Absent t
  | .fetchAdd idx => Placed m.mPtrs (hash t % n) idx ∧ m.Absent t ∧ t ∉ m.mSpilled
  | .store insertionIdx i => Inserting n hash m t insertionIdx i
  | .scan insertionIdx i idx empty =>
    Inserting n hash m t insertionIdx i ∧ m.Owns t i ∧ Placed m.mPtrs insertionIdx idx ∧
      ∀ p, empty = some p → ∃ j, m.Slot j p
  | .cas insertionIdx i idx empty =>
    Inserting n hash m t insertionIdx i ∧ m.Owns t i ∧ Placed m.mPtrs insertionIdx idx ∧
      ∀ p, empty = some p → ∃ j, m.Slot j p ∧ j ≠ idx
  | .spill => n ≤ m.mNumLockFreeEntries ∧ m.Absent t
  | .failed => False

/-- The index of `mData` that the thread has for its entry. -/
def Pc.index : Pc → Option Nat
  | .store _ i | .scan _ i _ _ | .cas _ i _ _ => some i
  | _ => none

end Table

/-- What is true in all runs. -/
structure Inv (n : Nat) (hash : τ → Nat) (s : St τ) : Prop where
  table : Table n hash s.toMem
  pcs : ∀ t, PcOk n hash s.toMem t (s.threads t)
  indices : ∀ t u i, (s.threads t).index = some i → (s.threads u).index = some i → t = u
  returned : ∀ t entry, (t, entry) ∈ s.returns ↔ s.Has t entry

section Steps

variable {n : Nat} {hash : τ → Nat} {m m' : Mem τ} {t u : τ}

/-- A comparison of the counter with the capacity. -/
theorem le_toSize (hn : n < 2 ^ 31) (w : Nat) : n ≤ toSize w ↔ n ≤ w := by
  unfold toSize
  split
  · exact Iff.rfl
  · constructor
    · intro _
      omega
    · intro h
      exact h.trans (Nat.le_add_right _ _)

/-- A slot points to one entry. -/
theorem Mem.Slot.inj {j p q : Nat} (hp : m.Slot j p) (hq : m.Slot j q) : p = q :=
  Option.some.inj (Option.some.inj (hp.symm.trans hq))

/-- An entry is stored for one thread. -/
theorem Mem.Owns.inj {p : Nat} (ht : m.Owns t p) (hu : m.Owns u p) : t = u :=
  Option.some.inj (Option.some.inj (ht.symm.trans hu))

/-- What a step of the thread `t`, which has the index `index`, leaves as it is for the others. -/
structure Keeps (t : τ) (index : Option Nat) (m m' : Mem τ) : Prop where
  ptrs : Extends m.mPtrs m'.mPtrs
  new : ∀ j p, m'.Slot j p → m.Slot j p ∨ index = some p ∧ m'.Owns t p
  data : ∀ p, index ≠ some p → m'.mData[p]? = m.mData[p]?
  num : m.mNumLockFreeEntries ≤ m'.mNumLockFreeEntries
  spilled : ∀ u ∈ m'.mSpilled, u ∈ m.mSpilled ∨ u = t
  free : ∀ j p, m.Slot j p → index ≠ some p

theorem Keeps.owns {index : Option Nat} {j p : Nat} (hk : Keeps t index m m') (hj : m.Slot j p) :
    m'.Owns u p ↔ m.Owns u p := by
  rw [Mem.Owns, Mem.Owns, hk.data p (hk.free j p hj)]

theorem Keeps.absent {index : Option Nat} (hk : Keeps t index m m') (hne : u ≠ t) (h : m.Absent u) :
    m'.Absent u := by
  intro j p hj howns
  rcases hk.new j p hj with hold | ⟨-, ht⟩
  · exact h j p hold ((hk.owns hold).mp howns)
  · exact hne (howns.inj ht)

theorem Keeps.searching {index : Option Nat} {idx : Nat} (hk : Keeps t index m m')
    (h : Searching n hash m u idx) : Searching n hash m' u idx := by
  obtain ⟨d, hd, hidx, hpassed⟩ := h
  refine ⟨d, hd, hidx, fun k hlt => ?_⟩
  obtain ⟨p, v, hp, hv, hne⟩ := hpassed k hlt
  exact ⟨p, v, hk.ptrs.keep _ p hp, (hk.owns hp).mpr hv, hne⟩

theorem Keeps.inserting {index : Option Nat} {insertionIdx i : Nat} (hk : Keeps t index m m')
    (hne : u ≠ t) (hi : index ≠ some i) (h : Inserting n hash m u insertionIdx i) :
    Inserting n hash m' u insertionIdx i where
  placed := h.placed.extend hk.ptrs
  absent := hk.absent hne h.absent
  not_spilled hu := (hk.spilled u hu).elim h.not_spilled hne
  lt := h.lt
  counted := h.counted.trans_le hk.num
  free j hj := (hk.new j i hj).elim (h.free j) fun he => hi he.1

/-- The other threads are as before. -/
theorem Keeps.pcOk {index : Option Nat} (hk : Keeps t index m m') (hne : u ≠ t) {pc : Pc}
    (hi : ∀ i, pc.index = some i → index ≠ some i) (h : PcOk n hash m u pc) :
    PcOk n hash m' u pc := by
  cases pc with
  | idle => trivial
  | probe idx => exact hk.searching h
  | entry idx => exact ⟨hk.searching h.1, h.2.imp fun p hp => hk.ptrs.keep _ p hp⟩
  | check idx => exact ⟨h.1.extend hk.ptrs, hk.absent hne h.2⟩
  | fetchAdd idx =>
    exact ⟨h.1.extend hk.ptrs, hk.absent hne h.2.1, fun hu => (hk.spilled u hu).elim h.2.2 hne⟩
  | store insertionIdx i => exact hk.inserting hne (hi i rfl) h
  | scan insertionIdx i idx empty =>
    obtain ⟨hins, howns, hplaced, hempty⟩ := h
    refine ⟨hk.inserting hne (hi i rfl) hins, ?_, hplaced.extend hk.ptrs, fun p hp => ?_⟩
    · exact (hk.data i (hi i rfl)).trans howns
    · exact (hempty p hp).imp fun j hj => hk.ptrs.keep _ p hj
  | cas insertionIdx i idx empty =>
    obtain ⟨hins, howns, hplaced, hempty⟩ := h
    refine ⟨hk.inserting hne (hi i rfl) hins, ?_, hplaced.extend hk.ptrs, fun p hp => ?_⟩
    · exact (hk.data i (hi i rfl)).trans howns
    · exact (hempty p hp).imp fun j hj => ⟨hk.ptrs.keep _ p hj.1, hj.2⟩
  | spill => exact ⟨h.1.trans hk.num, hk.absent hne h.2⟩
  | failed => exact h

theorem Table.lt {j p : Nat} (h : Table n hash m) (hj : m.Slot j p) : p < n := by
  obtain ⟨-, t, ht, -⟩ := h.placed j p hj
  exact h.data ▸ (List.getElem?_eq_some_iff.mp ht).1

/-- Where the slots are as before, the entries in them are. -/
theorem Keeps.absent_iff {index : Option Nat} (hk : Keeps t index m m') (hp : m'.mPtrs = m.mPtrs) :
    m'.Absent u ↔ m.Absent u := by
  have hslot : ∀ j p, m'.Slot j p ↔ m.Slot j p := fun j p => by rw [Mem.Slot, hp, Mem.Slot]
  constructor
  · intro h j p hj howns
    exact h j p ((hslot j p).mpr hj) ((hk.owns hj).mpr howns)
  · intro h j p hj howns
    have hj' := (hslot j p).mp hj
    exact h j p hj' ((hk.owns hj').mp howns)

theorem Keeps.has_data {index : Option Nat} {p : Nat} (hk : Keeps t index m m')
    (hp : m'.mPtrs = m.mPtrs) : m'.Has u (.data p) ↔ m.Has u (.data p) := by
  have hslot : ∀ j p, m'.Slot j p ↔ m.Slot j p := fun j p => by rw [Mem.Slot, hp, Mem.Slot]
  constructor
  · rintro ⟨⟨j, hj⟩, howns⟩
    have hj' := (hslot j p).mp hj
    exact ⟨⟨j, hj'⟩, (hk.owns hj').mp howns⟩
  · rintro ⟨⟨j, hj⟩, howns⟩
    exact ⟨⟨j, (hslot j p).mpr hj⟩, (hk.owns hj).mpr howns⟩

/-- The table, where the slots are as before. -/
theorem Keeps.table {index : Option Nat} (hk : Keeps t index m m') (hp : m'.mPtrs = m.mPtrs)
    (h : Table n hash m) (hdata : m'.mData.length = n) (hnodup : m'.mSpilled.Nodup)
    (hfull : m'.mSpilled ≠ [] → n ≤ m'.mNumLockFreeEntries)
    (hspilled : ∀ u ∈ m'.mSpilled, m.Absent u) : Table n hash m' := by
  have hslot : ∀ {j p}, m'.Slot j p → m.Slot j p := fun {j p} hj => by rwa [Mem.Slot, hp] at hj
  refine ⟨hp ▸ h.ptrs, hdata, ?_, ?_, ?_, hnodup, hfull, fun u hu => ?_⟩
  · intro j p hj
    obtain ⟨hlt, u, hu, hplaced⟩ := h.placed j p (hslot hj)
    exact ⟨hlt.trans_le hk.num, u, (hk.owns (hslot hj)).mpr hu, hplaced.extend hk.ptrs⟩
  · exact fun i j p hi hj => h.once i j p (hslot hi) (hslot hj)
  · intro i j p q u hi hj hup huq
    exact h.unique i j p q u (hslot hi) (hslot hj) ((hk.owns (hslot hi)).mp hup)
      ((hk.owns (hslot hj)).mp huq)
  · exact (hk.absent_iff hp).mpr (hspilled u hu)

theorem PcOk.free {pc : Pc} (h : PcOk n hash m t pc) {j p : Nat} (hj : m.Slot j p) :
    pc.index ≠ some p := by
  intro hi
  cases pc with
  | store insertionIdx i =>
    cases hi
    exact Inserting.free h j hj
  | scan insertionIdx i idx empty =>
    cases hi
    exact h.1.free j hj
  | cas insertionIdx i idx empty =>
    cases hi
    exact h.1.free j hj
  | _ => cases hi

theorem PcOk.counted {pc : Pc} (h : PcOk n hash m t pc) {i : Nat} (hi : pc.index = some i) :
    i < m.mNumLockFreeEntries := by
  cases pc with
  | store insertionIdx k =>
    cases hi
    exact Inserting.counted h
  | scan insertionIdx k idx empty =>
    cases hi
    exact h.1.counted
  | cas insertionIdx k idx empty =>
    cases hi
    exact h.1.counted
  | _ => cases hi

theorem Passed.filled {d : Nat} (h : Passed n hash m t d) (hn : m.mPtrs.length = n) :
    Filled m.mPtrs (hash t % n) d := by
  intro k hk
  obtain ⟨p, u, hp, -, -⟩ := h k hk
  rw [hn]
  exact ⟨p, hp⟩

/-- Where the search has passed every slot that leads to an entry of `t`, there is none. -/
theorem Passed.absent {d : Nat} (h : Passed n hash m t d)
    (hall : ∀ j p, m.Slot j p → m.Owns t p → ∃ k < d, probe n (hash t % n) k = j) : m.Absent t := by
  intro j p hj ht
  obtain ⟨k, hk, rfl⟩ := hall j p hj ht
  obtain ⟨q, u, hq, hu, hne⟩ := h k hk
  have hpq : p = q := hj.inj hq
  subst hpq
  exact hne (hu.inj ht)

theorem Table.home (h : Table n hash m) (hn : 0 < n) (t : τ) : hash t % n < m.mPtrs.length := by
  rw [h.ptrs]
  exact Nat.mod_lt _ hn

/-- The search comes to an empty slot. -/
theorem Searching.ended {idx : Nat} (h : Searching n hash m t idx) (ht : Table n hash m)
    (hnone : m.mPtrs[idx]? = some none) : PcOk n hash m t (.check idx) := by
  obtain ⟨d, hd, rfl, hpassed⟩ := h
  refine ⟨⟨d, ht.ptrs.symm ▸ hd, by rw [ht.ptrs], hpassed.filled ht.ptrs⟩, ?_⟩
  refine hpassed.absent fun j p hj howns => ?_
  obtain ⟨-, u, hu, hplaced⟩ := ht.placed j p hj
  have hut : u = t := hu.inj howns
  subst hut
  have hempty : m.mPtrs[probe m.mPtrs.length (hash u % n) d]? = some none := by rwa [ht.ptrs]
  obtain ⟨k, hk, hkj⟩ := hplaced.passed hj hempty
  exact ⟨k, hk, ht.ptrs ▸ hkj⟩

/-- The search goes on after the entry of another thread, or has passed all slots. -/
theorem Searching.next {idx p : Nat} (h : Searching n hash m t idx) (ht : Table n hash m)
    (hp : m.Slot idx p) (hu : m.Owns u p) (hne : u ≠ t) :
    if nextSlot n idx = hash t % n then PcOk n hash m t (.check (nextSlot n idx))
    else PcOk n hash m t (.probe (nextSlot n idx)) := by
  obtain ⟨d, hd, rfl, hpassed⟩ := h
  have hn : 0 < n := Nat.zero_lt_of_lt hd
  have hstart : hash t % n < n := Nat.mod_lt _ hn
  have hmore : Passed n hash m t (d + 1) := by
    intro k hk
    rcases Nat.lt_succ_iff_lt_or_eq.mp hk with hk | rfl
    · exact hpassed k hk
    · exact ⟨p, u, hp, hu, hne⟩
  split
  · rename_i hback
    have hall : d + 1 = n := (nextSlot_eq_iff hstart hd).mp hback
    rw [hback]
    refine ⟨.self (ht.home hn t), hmore.absent fun j q hj _ => ?_⟩
    have hjn : j < n := ht.ptrs ▸ (List.getElem?_eq_some_iff.mp hj).1
    obtain ⟨k, hk, hkj⟩ := exists_probe (hash t % n) hjn
    exact ⟨k, by omega, hkj⟩
  · rename_i hback
    have hlt : ¬ d + 1 = n := fun h => hback ((nextSlot_eq_iff hstart hd).mpr h)
    exact ⟨d + 1, by omega, (nextSlot_probe hn).symm, hmore⟩

theorem entryAt_eq_some {idx p : Nat} :
    m.entryAt idx = some (p, u) ↔ m.Slot idx p ∧ m.Owns u p := by
  constructor
  · intro h
    obtain ⟨ptr, hptr, hp⟩ := Option.bind_eq_some_iff.mp h
    obtain ⟨q, rfl, hq⟩ := Option.bind_eq_some_iff.mp hp
    obtain ⟨entry, hentry, he⟩ := Option.bind_eq_some_iff.mp hq
    obtain ⟨owner, rfl, ho⟩ := Option.bind_eq_some_iff.mp he
    cases ho
    exact ⟨hptr, hentry⟩
  · rintro ⟨hp, hu⟩
    unfold Mem.entryAt
    rw [hp]
    show (do let owner ← (← m.mData[p]?); pure (p, owner)) = _
    rw [hu]
    rfl

theorem Inserting.not_full {insertionIdx i : Nat} (h : Inserting n hash m t insertionIdx i)
    (ht : Table n hash m) : ∃ j : Nat, m.mPtrs[j]? = some none :=
  exists_empty (fun j k p => ht.once j k p) (fun _ _ hj => ht.ptrs.symm ▸ ht.lt hj)
    (ht.ptrs.symm ▸ h.lt) h.free

theorem getElem?_concat_eq_some {l : List τ} {k : Nat} :
    (l ++ [t])[k]? = some u ↔ l[k]? = some u ∨ u = t ∧ k = l.length := by
  rcases Nat.lt_trichotomy k l.length with hlt | rfl | hgt
  · rw [List.getElem?_append_left hlt]
    exact ⟨.inl, fun h => h.resolve_right fun he => hlt.ne he.2⟩
  · rw [List.getElem?_concat_length, List.getElem?_eq_none_iff.mpr le_rfl, Option.some.injEq]
    exact ⟨fun h => .inr ⟨h.symm, rfl⟩, fun h => (h.resolve_left nofun).1.symm⟩
  · have hout : (l ++ [t])[k]? = none :=
      List.getElem?_eq_none_iff.mpr (by rw [List.length_append]; exact hgt)
    rw [hout, List.getElem?_eq_none_iff.mpr hgt.le]
    exact ⟨nofun, fun h => absurd (h.resolve_left nofun).2 hgt.ne'⟩

section Moves

variable [DecidableEq τ] {s s' : St τ}

/-- A step of `t` to `pc'` that keeps what the others need. -/
theorem Inv.put (h : Inv n hash s) {pc' : Pc} {returns : List (τ × Ref)}
    (hk : Keeps t (s.threads t).index s.toMem m') (htable : Table n hash m')
    (hpc : PcOk n hash m' t pc')
    (hindex : ∀ i, pc'.index = some i → (s.threads t).index = some i ∨ s.mNumLockFreeEntries ≤ i)
    (hreturned : ∀ u entry, (u, entry) ∈ returns ↔ m'.Has u entry) :
    Inv n hash { toMem := m', threads := Function.update s.threads t pc', returns := returns } := by
  have hothers : ∀ u, u ≠ t → ∀ i, (s.threads u).index = some i → pc'.index ≠ some i := by
    intro u hne i hu hi
    rcases hindex i hi with ht | hle
    · exact hne (h.indices u t i hu ht)
    · exact absurd ((h.pcs u).counted hu) (not_lt.mpr hle)
  refine ⟨htable, fun u => ?_, fun u v i hu hv => ?_, hreturned⟩
  · by_cases hut : u = t
    · subst hut
      show PcOk n hash m' u (Function.update s.threads u pc' u)
      rwa [Function.update_self]
    · show PcOk n hash m' u (Function.update s.threads t pc' u)
      rw [Function.update_of_ne hut]
      exact hk.pcOk hut (fun i hu ht => hut (h.indices u t i hu ht)) (h.pcs u)
  · change (Function.update s.threads t pc' u).index = some i at hu
    change (Function.update s.threads t pc' v).index = some i at hv
    by_cases hut : u = t
    · by_cases hvt : v = t
      · exact hut.trans hvt.symm
      · rw [hut, Function.update_self] at hu
        rw [Function.update_of_ne hvt] at hv
        exact absurd hu (hothers v hvt i hv)
    · rw [Function.update_of_ne hut] at hu
      by_cases hvt : v = t
      · rw [hvt, Function.update_self] at hv
        exact absurd hv (hothers u hut i hu)
      · rw [Function.update_of_ne hvt] at hv
        exact h.indices u v i hu hv

omit [DecidableEq τ] in
/-- The members stay. -/
theorem Inv.keeps (h : Inv n hash s) (t : τ) : Keeps t (s.threads t).index s.toMem s.toMem where
  ptrs := .refl _
  new _ _ hj := .inl hj
  data _ _ := rfl
  num := le_rfl
  spilled _ hu := .inl hu
  free _ _ hj := (h.pcs t).free hj

theorem Inv.goto (h : Inv n hash s) {pc' : Pc} (hpc : PcOk n hash s.toMem t pc')
    (hindex : ∀ i, pc'.index = some i → (s.threads t).index = some i) :
    Inv n hash (s.goto t pc') :=
  h.put (h.keeps t) h.table hpc (fun i hi => .inl (hindex i hi)) h.returned

/-- A call returns an entry that the thread has. -/
theorem Inv.ret (h : Inv n hash s) {entry : Ref} (hhas : s.Has t entry) :
    Inv n hash (s.ret t entry) := by
  refine h.put (h.keeps t) h.table trivial nofun fun u e => ?_
  rw [List.mem_append, List.mem_singleton, h.returned, Prod.mk.injEq]
  constructor
  · rintro (hu | ⟨rfl, rfl⟩)
    · exact hu
    · exact hhas
  · exact .inl

theorem Inv.call (h : Inv n hash s) (hs : step n hash s (.call t) = some s') : Inv n hash s' := by
  obtain ⟨hidle, hs⟩ := Option.ite_none_right_eq_some.mp hs
  split at hs
  · rename_i hn
    cases hs
    refine h.goto ⟨hn ▸ Nat.zero_le _, fun j p hj => ?_⟩ nofun
    have hlt := (List.getElem?_eq_some_iff.mp hj).1
    rw [h.table.ptrs, hn] at hlt
    exact absurd hlt (Nat.not_lt_zero j)
  · rename_i hn
    cases hs
    have hpos : 0 < n := Nat.pos_of_ne_zero hn
    refine h.goto ⟨0, hpos, probe_zero (Nat.mod_lt _ hpos), ?_⟩ nofun
    exact fun k hk => absurd hk (Nat.not_lt_zero k)

theorem Inv.probe {idx : Nat} {spurious : Bool} (h : Inv n hash s)
    (hok : PcOk n hash s.toMem t (.probe idx)) (hs : next n hash s t spurious (.probe idx) = some s') :
    Inv n hash s' := by
  have hlt : idx < s.mPtrs.length := by
    obtain ⟨d, hd, rfl, -⟩ := hok
    rw [h.table.ptrs]
    exact stride_lt (Nat.zero_lt_of_lt hd) d
  rw [ThreadLocal.next] at hs
  split at hs
  · rename_i hnone
    cases hs
    exact h.goto (Searching.ended hok h.table hnone) nofun
  · rename_i p hp
    cases hs
    exact h.goto ⟨hok, p, hp⟩ nofun
  · rename_i hout
    exact absurd (List.getElem?_eq_none_iff.mp hout) (not_le.mpr hlt)

theorem Inv.entry {idx : Nat} {spurious : Bool} (h : Inv n hash s)
    (hok : PcOk n hash s.toMem t (.entry idx)) (hs : next n hash s t spurious (.entry idx) = some s') :
    Inv n hash s' := by
  rw [ThreadLocal.next] at hs
  split at hs
  · rename_i p owner hentry
    obtain ⟨hp, hu⟩ := entryAt_eq_some.mp hentry
    split at hs
    · rename_i howner
      cases hs
      exact h.ret ⟨⟨idx, hp⟩, howner ▸ hu⟩
    · rename_i hne
      have hnext := Searching.next hok.1 h.table hp hu hne
      split at hs
      · rename_i hback
        cases hs
        rw [if_pos hback] at hnext
        exact h.goto hnext nofun
      · rename_i hback
        cases hs
        rw [if_neg hback] at hnext
        exact h.goto hnext nofun
  · rename_i hentry
    obtain ⟨-, p, hp⟩ := hok
    obtain ⟨-, u, hu, -⟩ := h.table.placed idx p hp
    cases hentry.symm.trans (entryAt_eq_some.mpr ⟨hp, hu⟩)

theorem Inv.check {idx : Nat} {spurious : Bool} (hn : n < 2 ^ 31) (h : Inv n hash s)
    (hok : PcOk n hash s.toMem t (.check idx)) (hs : next n hash s t spurious (.check idx) = some s') :
    Inv n hash s' := by
  rw [ThreadLocal.next] at hs
  simp only [le_toSize hn] at hs
  split at hs
  · rename_i hle
    cases hs
    exact h.goto ⟨hle, hok.2⟩ nofun
  · rename_i hlt
    cases hs
    refine h.goto ⟨hok.1, hok.2, fun hm => hlt (h.table.full ?_)⟩ nofun
    exact List.ne_nil_of_mem hm

theorem Inv.fetchAdd {idx : Nat} {spurious : Bool} (hn : n < 2 ^ 31) (h : Inv n hash s)
    (hat : s.threads t = .fetchAdd idx) (hfit : s.mNumLockFreeEntries + 1 < 2 ^ 32)
    (hs : next n hash s t spurious (.fetchAdd idx) = some s') : Inv n hash s' := by
  have hok : PcOk n hash s.toMem t (.fetchAdd idx) := hat ▸ h.pcs t
  -- The members after the increment.
  let m' : Mem τ := { s.toMem with mNumLockFreeEntries := s.mNumLockFreeEntries + 1 }
  have hk : Keeps t (s.threads t).index s.toMem m' :=
    { h.keeps t with num := Nat.le_succ _ }
  have htable : Table n hash m' :=
    hk.table rfl h.table h.table.data h.table.nodup
      (fun hne => (h.table.full hne).trans (Nat.le_succ _)) h.table.spilled
  have hreturned : ∀ u entry, (u, entry) ∈ s.returns ↔ m'.Has u entry := h.returned
  rw [ThreadLocal.next] at hs
  simp only [le_toSize hn, Nat.mod_eq_of_lt hfit] at hs
  split at hs
  · rename_i hle
    cases hs
    exact h.put hk htable ⟨hle.trans (Nat.le_succ _), hok.2.1⟩ nofun hreturned
  · rename_i hlt
    cases hs
    refine h.put hk htable ?_ ?_ hreturned
    · refine ⟨hok.1, hok.2.1, hok.2.2, not_le.mp hlt, Nat.lt_succ_self _, fun j hj => ?_⟩
      exact absurd (h.table.placed j _ hj).1 (lt_irrefl _)
    · rintro i hi
      cases hi
      exact .inr le_rfl

theorem Inv.store {insertionIdx i : Nat} {spurious : Bool} (h : Inv n hash s)
    (hat : s.threads t = .store insertionIdx i)
    (hs : next n hash s t spurious (.store insertionIdx i) = some s') : Inv n hash s' := by
  have hok : Inserting n hash s.toMem t insertionIdx i := (hat ▸ h.pcs t : PcOk _ _ _ _ (.store _ _))
  have hlen : i < s.mData.length := h.table.data.symm ▸ hok.lt
  let m' : Mem τ := { s.toMem with mData := s.mData.set i (some t) }
  have hindex : (s.threads t).index = some i := by rw [hat]; rfl
  have hk : Keeps t (s.threads t).index s.toMem m' :=
    { h.keeps t with
      new := fun _ _ hj => .inl hj
      data := fun p hp => List.getElem?_set_ne fun he => hp (hindex.trans (congrArg some he)) }
  have htable : Table n hash m' :=
    hk.table rfl h.table (List.length_set.trans h.table.data) h.table.nodup h.table.full h.table.spilled
  rw [ThreadLocal.next, if_pos hlen] at hs
  cases hs
  refine h.put hk htable ?_ (fun k hi => .inl (hindex.trans hi)) fun u entry => ?_
  · refine ⟨?_, List.getElem?_set_self hlen, .self ?_, nofun⟩
    · exact ⟨hok.placed, (hk.absent_iff rfl).mpr hok.absent, hok.not_spilled, hok.lt, hok.counted,
        hok.free⟩
    · exact hok.placed.lt
  · rw [h.returned]
    cases entry with
    | data p => exact (hk.has_data rfl).symm
    | spilled k => exact Iff.rfl

theorem Inv.scan {insertionIdx i idx : Nat} {empty : Option Nat} {spurious : Bool}
    (h : Inv n hash s) (hat : s.threads t = .scan insertionIdx i idx empty)
    (hs : next n hash s t spurious (.scan insertionIdx i idx empty) = some s') : Inv n hash s' := by
  have hok : PcOk n hash s.toMem t (.scan insertionIdx i idx empty) := hat ▸ h.pcs t
  have hindex : (s.threads t).index = some i := by rw [hat]; rfl
  obtain ⟨hins, howns, hplaced, hempty⟩ := hok
  rw [ThreadLocal.next] at hs
  split at hs
  · rename_i hnone
    cases hs
    refine h.goto ⟨hins, howns, hplaced, fun p hp => ?_⟩ fun k hi => hindex.trans hi
    obtain ⟨j, hj⟩ := hempty p hp
    refine ⟨j, hj, ?_⟩
    rintro rfl
    cases hnone.symm.trans hj
  · rename_i p hp
    have hlen := h.table.ptrs
    rw [← hlen] at hs
    split at hs
    · -- A full circle: all slots are filled, but the index of this thread has none.
      rename_i hback
      obtain ⟨j, hj⟩ := hins.not_full h.table
      have hlt := (List.getElem?_eq_some_iff.mp hj).1
      obtain ⟨q, hq⟩ := hplaced.all hp hback hins.placed.lt hlt
      cases hj.symm.trans hq
    · rename_i hne
      cases hs
      exact h.goto ⟨hins, howns, hplaced.next hp hne hins.placed.lt, hempty⟩ fun k hi => hindex.trans hi
  · rename_i hout
    exact absurd hplaced.lt (not_lt.mpr (List.getElem?_eq_none_iff.mp hout))

/-- An entry is inserted into an empty slot. -/
theorem Inv.insert {insertionIdx i idx : Nat} (h : Inv n hash s) (hindex : (s.threads t).index = some i)
    (hins : Inserting n hash s.toMem t insertionIdx i) (howns : s.Owns t i)
    (hplaced : Placed s.mPtrs insertionIdx idx) (hnone : s.mPtrs[idx]? = some none) :
    Inv n hash ({ s with mPtrs := s.mPtrs.set idx (some i) }.ret t (.data i)) := by
  let m' : Mem τ := { s.toMem with mPtrs := s.mPtrs.set idx (some i) }
  have hext : Extends s.mPtrs m'.mPtrs := extends_set hnone i
  have hself : m'.Slot idx i := List.getElem?_set_self hplaced.lt
  have hslot : ∀ j p, m'.Slot j p → s.Slot j p ∨ j = idx ∧ p = i := by
    intro j p hj
    by_cases hji : j = idx
    · subst hji
      exact .inr ⟨rfl, hj.inj hself⟩
    · exact .inl ((List.getElem?_set_ne (Ne.symm hji)).symm.trans hj)
  have hnew : ∀ j p, m'.Slot j p → s.Slot j p ∨ (s.threads t).index = some p ∧ s.Owns t p := by
    intro j p hj
    rcases hslot j p hj with hold | ⟨-, rfl⟩
    · exact .inl hold
    · exact .inr ⟨hindex, howns⟩
  have hk : Keeps t (s.threads t).index s.toMem m' := { h.keeps t with ptrs := hext, new := hnew }
  have howner : ∀ u, s.Owns u i → u = t := fun u hu => hu.inj howns
  have htable : Table n hash m' := by
    refine ⟨hext.length.trans h.table.ptrs, h.table.data, ?_, ?_, ?_, h.table.nodup, h.table.full, ?_⟩
    · intro j p hj
      rcases hslot j p hj with hold | ⟨rfl, rfl⟩
      · obtain ⟨hlt, u, hu, hp⟩ := h.table.placed j p hold
        exact ⟨hlt, u, hu, hp.extend hext⟩
      · exact ⟨hins.counted, t, howns, (hins.placed.trans hplaced).extend hext⟩
    · intro j k p hj hk
      rcases hslot j p hj with hoj | ⟨rfl, rfl⟩
      · rcases hslot k p hk with hok | ⟨rfl, rfl⟩
        · exact h.table.once j k p hoj hok
        · exact absurd hoj (hins.free j)
      · rcases hslot k _ hk with hok | ⟨rfl, -⟩
        · exact absurd hok (hins.free k)
        · rfl
    · intro j k p q u hj hk hp hq
      rcases hslot j p hj with hoj | ⟨rfl, rfl⟩
      · rcases hslot k q hk with hok | ⟨rfl, rfl⟩
        · exact h.table.unique j k p q u hoj hok hp hq
        · exact absurd (howner u hq ▸ hp) (hins.absent j p hoj)
      · rcases hslot k q hk with hok | ⟨-, rfl⟩
        · exact absurd (howner u hp ▸ hq) (hins.absent k q hok)
        · rfl
    · intro u hu
      refine hk.absent ?_ (h.table.spilled u hu)
      rintro rfl
      exact hins.not_spilled hu
  refine h.put hk htable trivial nofun fun u entry => ?_
  rw [List.mem_append, List.mem_singleton, h.returned, Prod.mk.injEq]
  cases entry with
  | data p =>
    constructor
    · rintro (⟨⟨j, hj⟩, hu⟩ | ⟨rfl, he⟩)
      · exact ⟨⟨j, hext.keep j p hj⟩, hu⟩
      · cases he
        exact ⟨⟨idx, hself⟩, howns⟩
    · rintro ⟨⟨j, hj⟩, hu⟩
      rcases hslot j p hj with hold | ⟨rfl, rfl⟩
      · exact .inl ⟨⟨j, hold⟩, hu⟩
      · exact .inr ⟨howner u hu, rfl⟩
  | spilled k =>
    constructor
    · rintro (hu | ⟨-, he⟩)
      · exact hu
      · cases he
    · exact .inl

theorem Inv.cas {insertionIdx i idx : Nat} {empty : Option Nat} {spurious : Bool} (h : Inv n hash s)
    (hat : s.threads t = .cas insertionIdx i idx empty)
    (hs : next n hash s t spurious (.cas insertionIdx i idx empty) = some s') : Inv n hash s' := by
  have hok : PcOk n hash s.toMem t (.cas insertionIdx i idx empty) := hat ▸ h.pcs t
  have hindex : (s.threads t).index = some i := by rw [hat]; rfl
  obtain ⟨hins, howns, hplaced, hempty⟩ := hok
  rw [ThreadLocal.next] at hs
  split at hs
  · rename_i p hp
    split at hs
    · rename_i hcas
      cases hs
      have hnone : p = none := by
        cases p with
        | none => rfl
        | some q =>
          -- The entry that an earlier failure left in `empty` is in another slot.
          obtain ⟨j, hj, hne⟩ := hempty q hcas.1.symm
          exact absurd (h.table.once j idx q hj hp) hne
      exact h.insert hindex hins howns hplaced (hnone ▸ hp)
    · cases hs
      refine h.goto ⟨hins, howns, .self hins.placed.lt, ?_⟩ fun k hi => hindex.trans hi
      rintro q rfl
      exact ⟨idx, hp⟩
  · rename_i hout
    exact absurd hplaced.lt (not_lt.mpr (List.getElem?_eq_none_iff.mp hout))

theorem Inv.spill {spurious : Bool} (h : Inv n hash s) (hat : s.threads t = .spill)
    (hs : next n hash s t spurious .spill = some s') : Inv n hash s' := by
  have hok : PcOk n hash s.toMem t .spill := hat ▸ h.pcs t
  rw [ThreadLocal.next, spilledLocal] at hs
  split at hs
  · rename_i k hfind
    cases hs
    obtain ⟨hlt, hk, -⟩ := List.findIdx?_eq_some_iff_getElem.mp hfind
    have hhas : s.Has t (.spilled k) := List.getElem?_eq_some_iff.mpr ⟨hlt, of_decide_eq_true hk⟩
    exact h.ret hhas
  · rename_i hfind
    cases hs
    have hnew : t ∉ s.mSpilled := fun hm => by
      have := List.findIdx?_eq_none_iff.mp hfind t hm
      simp at this
    let m' : Mem τ := { s.toMem with mSpilled := s.mSpilled ++ [t] }
    have hk : Keeps t (s.threads t).index s.toMem m' :=
      { h.keeps t with
        spilled := fun u hu => (List.mem_append.mp hu).imp_right List.mem_singleton.mp }
    have htable : Table n hash m' := by
      refine hk.table rfl h.table h.table.data ?_ (fun _ => hok.1) fun u hu => ?_
      · exact List.nodup_append.mpr ⟨h.table.nodup, List.nodup_singleton t, by
          rintro u hu v hv rfl
          exact hnew (List.mem_singleton.mp hv ▸ hu)⟩
      · rcases List.mem_append.mp hu with hu | hu
        · exact h.table.spilled u hu
        · exact List.mem_singleton.mp hu ▸ hok.2
    refine h.put hk htable trivial nofun fun u entry => ?_
    rw [List.mem_append, List.mem_singleton, h.returned, Prod.mk.injEq]
    cases entry with
    | data p =>
      constructor
      · rintro (hu | ⟨-, he⟩)
        · exact hu
        · cases he
      · exact .inl
    | spilled k =>
      show s.mSpilled[k]? = some u ∨ _ ↔ (s.mSpilled ++ [t])[k]? = some u
      rw [getElem?_concat_eq_some, Ref.spilled.injEq]

theorem Inv.step (hn : n < 2 ^ 31) (h : Inv n hash s) {l : Label τ} (hfit : Fits s l)
    (hs : ThreadLocal.step n hash s l = some s') : Inv n hash s' := by
  cases l with
  | call t => exact h.call hs
  | step t spurious =>
    have hok := h.pcs t
    change next n hash s t spurious (s.threads t) = some s' at hs
    cases hat : s.threads t with
    | idle => rw [hat] at hs; cases hs
    | failed => rw [hat] at hs; cases hs
    | probe idx => rw [hat] at hs hok; exact h.probe hok hs
    | entry idx => rw [hat] at hs hok; exact h.entry hok hs
    | check idx => rw [hat] at hs hok; exact h.check hn hok hs
    | fetchAdd idx =>
      rw [hat] at hs
      change s.mNumLockFreeEntries + (s.threads t).adds < 2 ^ 32 at hfit
      rw [hat] at hfit
      exact h.fetchAdd hn hat hfit hs
    | store insertionIdx i => rw [hat] at hs; exact h.store hat hs
    | scan insertionIdx i idx empty => rw [hat] at hs; exact h.scan hat hs
    | cas insertionIdx i idx empty => rw [hat] at hs; exact h.cas hat hs
    | spill => rw [hat] at hs; exact h.spill hat hs

omit [DecidableEq τ] in
theorem inv_init (n : Nat) (hash : τ → Nat) : Inv n hash (init n : St τ) := by
  have hnone : ∀ j p, ¬ (init n : St τ).Slot j p := by
    intro j p hj
    have hm := List.mem_of_getElem? hj
    cases List.eq_of_mem_replicate hm
  refine ⟨⟨List.length_replicate, List.length_replicate, ?_, ?_, ?_, List.nodup_nil, nofun, nofun⟩,
    fun _ => trivial, nofun, fun t entry => ⟨nofun, ?_⟩⟩
  · exact fun j p hj => absurd hj (hnone j p)
  · exact fun i j p hi => absurd hi (hnone i p)
  · exact fun i j p q t hi => absurd hi (hnone i p)
  · cases entry with
    | data p => exact fun hhas => absurd hhas.1.choose_spec (hnone _ p)
    | spilled k => exact nofun

theorem inv_reach (hn : n < 2 ^ 31) (hs : (sys n hash (init n)).Reach Fits s) : Inv n hash s :=
  hs.invariant (by rintro _ rfl; exact inv_init n hash) fun _ _ _ h hfit hs => h.step hn hfit hs

end Moves

end Steps

/-! ## The entries of the threads -/

section ForEach

variable {n : Nat} {hash : τ → Nat} {m : Mem τ}

/-- The slots in the list `ptrs` show each entry once. -/
theorem visitPtrs_spec {ptrs : List (Option Nat)} (howner : ∀ p, some p ∈ ptrs → ∃ t, m.Owns t p)
    (honce : ptrs.Pairwise fun ptr ptr' => ptr = ptr' → ptr = none) :
    ∃ visited, visitPtrs m ptrs = some visited ∧ visited.Nodup ∧
      ∀ t entry, (t, entry) ∈ visited ↔ ∃ p, entry = .data p ∧ some p ∈ ptrs ∧ m.Owns t p := by
  induction ptrs with
  | nil => exact ⟨[], rfl, List.nodup_nil, fun t entry => ⟨nofun, fun ⟨_, _, hm, _⟩ => nomatch hm⟩⟩
  | cons ptr ptrs ih =>
    obtain ⟨hnot, honce⟩ := List.pairwise_cons.mp honce
    obtain ⟨visited, hvisited, hnodup, hmem⟩ :=
      ih (fun p hp => howner p (List.mem_cons_of_mem _ hp)) honce
    cases ptr with
    | none =>
      refine ⟨visited, hvisited, hnodup, fun t entry => (hmem t entry).trans ?_⟩
      simp only [List.mem_cons, reduceCtorEq, false_or]
    | some p =>
      obtain ⟨u, hu⟩ := howner p List.mem_cons_self
      refine ⟨(u, .data p) :: visited, ?_, List.nodup_cons.mpr ⟨fun hm => ?_, hnodup⟩, fun t entry => ?_⟩
      · rw [visitPtrs, hvisited, hu]
        rfl
      · obtain ⟨q, he, hq, -⟩ := (hmem u _).mp hm
        cases he
        cases hnot (some p) hq rfl
      · rw [List.mem_cons, hmem]
        constructor
        · rintro (he | ⟨q, he, hq, ht⟩)
          · cases he
            exact ⟨p, rfl, List.mem_cons_self, hu⟩
          · exact ⟨q, he, List.mem_cons_of_mem _ hq, ht⟩
        · rintro ⟨q, rfl, hq, ht⟩
          rcases List.mem_cons.mp hq with he | hq
          · cases he
            exact .inl (by rw [ht.inj hu])
          · exact .inr ⟨q, rfl, hq, ht⟩

theorem Table.pairwise (h : Table n hash m) :
    m.mPtrs.Pairwise fun ptr ptr' => ptr = ptr' → ptr = none := by
  refine List.pairwise_iff_getElem.mpr fun i j hi hj hij he => ?_
  cases hp : m.mPtrs[i] with
  | none => rfl
  | some p =>
    have hpi : m.Slot i p := (List.getElem?_eq_getElem hi).trans (congrArg some hp)
    have hpj : m.Slot j p :=
      (List.getElem?_eq_getElem hj).trans (congrArg some (he.symm.trans hp))
    exact absurd (h.once i j p hpi hpj) hij.ne

/-- A thread has at most one entry. -/
theorem Table.has_unique (h : Table n hash m) {t : τ} {entry entry' : Ref} (he : m.Has t entry)
    (he' : m.Has t entry') : entry = entry' := by
  cases entry with
  | data p =>
    obtain ⟨⟨i, hi⟩, hp⟩ := he
    cases entry' with
    | data q =>
      obtain ⟨⟨j, hj⟩, hq⟩ := he'
      exact congrArg Ref.data (h.unique i j p q t hi hj hp hq)
    | spilled k => exact absurd hp (h.spilled t (List.mem_of_getElem? he') i p hi)
  | spilled k =>
    cases entry' with
    | data q =>
      obtain ⟨⟨j, hj⟩, hq⟩ := he'
      exact absurd hq (h.spilled t (List.mem_of_getElem? he) j q hj)
    | spilled l =>
      have hk := (List.getElem?_eq_some_iff.mp he).1
      exact congrArg Ref.spilled ((List.getElem?_inj hk h.nodup).mp (he.trans he'.symm))

/-- An entry is of one thread. -/
theorem Mem.Has.thread_unique {t u : τ} {entry : Ref} (ht : m.Has t entry) (hu : m.Has u entry) :
    t = u := by
  cases entry with
  | data p => exact ht.2.inj hu.2
  | spilled k => exact Option.some.inj (ht.symm.trans hu)

theorem mem_zipIdx_spilled {t : τ} {entry : Ref} :
    ((t, entry) ∈ m.mSpilled.zipIdx.map fun (t, k) => (t, Ref.spilled k)) ↔
      ∃ k, entry = .spilled k ∧ m.mSpilled[k]? = some t := by
  rw [List.mem_map]
  constructor
  · rintro ⟨⟨u, k⟩, hk, he⟩
    cases he
    exact ⟨k, rfl, List.mem_zipIdx_iff_getElem?.mp hk⟩
  · rintro ⟨k, rfl, hk⟩
    exact ⟨(t, k), List.mem_zipIdx_iff_getElem?.mpr hk, rfl⟩

/-- `ForEach` visits the entry of each thread that has one, once. -/
theorem Table.forEach (hn : n < 2 ^ 31) (h : Table n hash m) : ∃ visited, ThreadLocal.forEach n m = some visited ∧
    (visited.map Prod.fst).Nodup ∧ ∀ t entry, (t, entry) ∈ visited ↔ m.Has t entry := by
  have howner : ∀ p, some p ∈ m.mPtrs → ∃ t, m.Owns t p := by
    intro p hp
    obtain ⟨j, hj⟩ := List.mem_iff_getElem?.mp hp
    obtain ⟨-, t, ht, -⟩ := h.placed j p hj
    exact ⟨t, ht⟩
  obtain ⟨visited, hvisited, hnodup, hmem⟩ := visitPtrs_spec howner h.pairwise
  have hdata : ∀ t entry, (t, entry) ∈ visited ↔ ∃ p, entry = .data p ∧ m.Has t (.data p) := by
    intro t entry
    rw [hmem]
    refine exists_congr fun p => and_congr_right fun _ => and_congr_left fun _ => ?_
    exact List.mem_iff_getElem?
  have hthreads : (visited.map Prod.fst).Nodup := by
    refine (List.nodup_map_iff_inj_on hnodup).mpr ?_
    rintro ⟨t, entry⟩ ht ⟨u, entry'⟩ hu htu
    obtain ⟨p, rfl, hp⟩ := (hdata t entry).mp ht
    obtain ⟨q, rfl, hq⟩ := (hdata u entry').mp hu
    cases htu
    rw [h.has_unique hp hq]
  have hforEach : ThreadLocal.forEach n m = if m.mNumLockFreeEntries < n then some visited
      else some (visited ++ m.mSpilled.zipIdx.map fun (t, k) => (t, .spilled k)) := by
    rw [ThreadLocal.forEach, hvisited]
    simp only [← not_le, ← le_toSize hn m.mNumLockFreeEntries]
    rfl
  by_cases hlt : m.mNumLockFreeEntries < n
  · rw [if_pos hlt] at hforEach
    refine ⟨visited, hforEach, hthreads, fun t entry => (hdata t entry).trans ?_⟩
    cases entry with
    | data p => exact ⟨fun ⟨q, he, hq⟩ => by cases he; exact hq, fun hp => ⟨p, rfl, hp⟩⟩
    | spilled k =>
      refine ⟨fun ⟨q, he, _⟩ => (nomatch he), fun hk => ?_⟩
      have hne : m.mSpilled ≠ [] := List.ne_nil_of_mem (List.mem_of_getElem? hk)
      exact absurd (h.full hne) (not_le.mpr hlt)
  · rw [if_neg hlt] at hforEach
    refine ⟨_, hforEach, ?_, fun t entry => ?_⟩
    · rw [List.map_append, List.map_map]
      have hfst : (m.mSpilled.zipIdx.map (Prod.fst ∘ fun (t, k) => (t, Ref.spilled k))) = m.mSpilled :=
        List.zipIdx_map_fst 0 m.mSpilled
      rw [hfst]
      refine List.nodup_append.mpr ⟨hthreads, h.nodup, ?_⟩
      rintro t ht u hu rfl
      obtain ⟨⟨v, entry⟩, hv, rfl⟩ := List.mem_map.mp ht
      obtain ⟨p, rfl, ⟨j, hj⟩, hp⟩ := (hdata v entry).mp hv
      exact h.spilled v hu j p hj hp
    · rw [List.mem_append, hdata, mem_zipIdx_spilled]
      cases entry with
      | data p =>
        refine ⟨?_, fun hp => .inl ⟨p, rfl, hp⟩⟩
        rintro (⟨q, he, hq⟩ | ⟨k, he, -⟩)
        · cases he
          exact hq
        · cases he
      | spilled k =>
        refine ⟨?_, fun hk => .inr ⟨k, rfl, hk⟩⟩
        rintro (⟨q, he, -⟩ | ⟨l, he, hl⟩)
        · cases he
        · cases he
          exact hl

end ForEach

/-- What holds in every state of a run. -/
structure Correct (n : Nat) (s : St τ) : Prop where
  /-- All calls of one thread return the same entry. -/
  same : ∀ t entry entry', (t, entry) ∈ s.returns → (t, entry') ∈ s.returns → entry = entry'
  /-- No two threads get the same entry. -/
  distinct : ∀ t u entry, (t, entry) ∈ s.returns → (u, entry) ∈ s.returns → t = u
  assertion : ∀ t, s.threads t ≠ .failed
  /-- With no call in progress `ForEach` visits one entry for each thread, the one it got. -/
  forEach : (∀ t, s.threads t = .idle) → ∃ visited, forEach n s.toMem = some visited ∧
    (visited.map Prod.fst).Nodup ∧ ∀ t entry, (t, entry) ∈ visited ↔ (t, entry) ∈ s.returns

/-! ## The constructor -/

theorem clearPtrs_eq_some {n : Nat} (hn : n < 2 ^ 31) (i : Nat) :
    clearPtrs n i (List.replicate n none) = some (List.replicate n none) := by
  induction hm : n - i using Nat.strongRecOn generalizing i with
  | ind m ih =>
    subst hm
    rw [clearPtrs]
    split
    · rw [if_pos (by omega), List.set_replicate_self]
      exact ih _ (by omega) (i + 1) rfl
    · rfl

/-- With `2^31` slots or more the `int` overflows. -/
theorem clearPtrs_eq_none {n : Nat} (hn : 2 ^ 31 ≤ n) {i : Nat} (hi : i < 2 ^ 31)
    (ptrs : List (Option Nat)) : clearPtrs n i ptrs = none := by
  induction hm : 2 ^ 31 - i using Nat.strongRecOn generalizing i ptrs with
  | ind m ih =>
    subst hm
    rw [clearPtrs, if_pos (by omega)]
    split
    · rename_i hlt
      exact ih _ (by omega) hlt _ rfl
    · rfl

theorem construct_eq_some {n : Nat} (hn : n < 2 ^ 31) :
    construct n = some (init n : St τ) := by
  rw [construct, clearPtrs_eq_some hn]
  rfl

theorem construct_eq_none {n : Nat} (hn : 2 ^ 31 ≤ n) : (construct n : Option (St τ)) = none := by
  rw [construct, clearPtrs_eq_none hn (by decide)]
  rfl

/-! ## All runs -/

theorem correct_reach [DecidableEq τ] {n : Nat} {hash : τ → Nat} {s : St τ} (hn : n < 2 ^ 31)
    (hs : (sys n hash (init n)).Reach Fits s) : Correct n s := by
  have h := inv_reach hn hs
  refine ⟨fun t e e' he he' => ?_, fun t u e ht hu => ?_, fun t hf => ?_, fun _ => ?_⟩
  · exact h.table.has_unique ((h.returned t e).mp he) ((h.returned t e').mp he')
  · exact ((h.returned t e).mp ht).thread_unique ((h.returned u e).mp hu)
  · have hok := h.pcs t
    rw [hf] at hok
    exact hok
  · obtain ⟨visited, hvisited, hnodup, hmem⟩ := h.table.forEach hn
    exact ⟨visited, hvisited, hnodup, fun t e => (hmem t e).trans (h.returned t e).symm⟩

/-- The constructor makes a `ThreadLocal` that is right in every run if and only if the capacity is
below `2^31`. -/
theorem local_correct [DecidableEq τ] (mCapacity : Nat) (hash : τ → Nat) :
    (∃ s₀ : St τ, construct mCapacity = some s₀ ∧
      ∀ s, (sys mCapacity hash s₀).Reach Fits s → Correct mCapacity s) ↔ mCapacity < 2 ^ 31 := by
  constructor
  · rintro ⟨s₀, hs₀, -⟩
    refine not_le.mp fun hle => ?_
    rw [construct_eq_none hle] at hs₀
    cases hs₀
  · exact fun hn => ⟨init mCapacity, construct_eq_some hn, fun s hs => correct_reach hn hs⟩

/-- The constructor does not come to its end with a capacity of `2^31`. -/
theorem not_local_correct : ¬ ∀ mCapacity : Nat, ∃ s₀ : St Nat, construct mCapacity = some s₀ ∧
    ∀ s, (sys mCapacity (fun t => t) s₀).Reach Any s → Correct mCapacity s := by
  intro h
  obtain ⟨s₀, hs₀, -⟩ := h (2 ^ 31)
  rw [construct_eq_none (Nat.le_refl _)] at hs₀
  cases hs₀

/-- One slot and two threads: the second one spills, and the first one finds its entry again. -/
theorem local_correct_two : ∃ s : St Nat,
    s.returns = [(0, .data 0), (1, .spilled 0), (0, .data 0)] ∧ Correct 1 s := by
  obtain ⟨s₀, hs₀, hcorrect⟩ := (local_correct 1 fun t : Nat => t).mpr (by decide)
  rw [construct_eq_some (by decide)] at hs₀
  cases hs₀
  have hr : ∀ s, runLabels (guarded (step 1 fun t : Nat => t) Fits) (init 1)
      (.call 0 :: List.replicate 6 (.step 0 false) ++ .call 1 :: List.replicate 4 (.step 1 false) ++
        .call 0 :: List.replicate 2 (.step 0 false)) = some s → Correct 1 s := fun s hs =>
    hcorrect s (reach_guarded (.init rfl) _ hs)
  exact ⟨_, rfl, hr _ rfl⟩

end ThreadLocal

end AsyncLib
