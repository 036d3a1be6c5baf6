import AsyncLib.Lib.Bitfield
import AsyncLib.Lib.Modify
import AsyncLib.Lib.System
import Mathlib.Data.List.Infix

/-!
# `ConcurrentVector`

`async/support/concurrent_vector.h`. A writer holds the mutex and fills the last buffer; when it is
full, a buffer of twice its capacity takes its elements. Readers take no lock: they load one word,
the number of elements and the index of the last buffer, and read that buffer.

* `Vec`: a `std::vector`, with the times that it moved its items.
* `Writer`, `Reader`: where a thread is in `emplace_back` or in `operator[]`; `step`: the steps of all
  threads, any of them between any two others.
* `Inv`: every buffer is a prefix of what was inserted, and a buffer that a word was published for
  keeps that many elements. `emplaceBack_correct`: in every run of fewer than 2^32 calls.

A failed assertion is a place of its own.
-/

namespace AsyncLib

namespace ConcurrentVector

open Sys

/-! ## The code -/

/-- `std::vector`; `moved` counts the reallocations that moved items. -/
structure Vec (α : Type) where
  items : List α
  capacity : Nat
  moved : Nat
  deriving DecidableEq, Repr

namespace Vec

variable {α : Type}

/-- No memory. -/
def empty : Vec α := ⟨[], 0, 0⟩

/-- `reserve`. -/
def reserve (v : Vec α) (n : Nat) : Vec α :=
  if n ≤ v.capacity then v
  else ⟨v.items, n, if v.items.isEmpty then v.moved else v.moved + 1⟩

/-- `insert(begin(), …)`. -/
def insertFront (v : Vec α) (items : List α) : Vec α :=
  if items.length + v.items.length ≤ v.capacity then ⟨items ++ v.items, v.capacity, v.moved⟩
  else ⟨items ++ v.items, 2 * (items.length + v.items.length), v.moved + 1⟩

/-- `emplace_back`. -/
def emplaceBack (v : Vec α) (x : α) : Vec α :=
  if v.items.length < v.capacity then ⟨v.items ++ [x], v.capacity, v.moved⟩
  else ⟨v.items ++ [x], 2 * (v.items.length + 1), v.moved + 1⟩

/-- An update of `back()`. -/
def modifyBack (v : Vec α) (f : α → α) : Vec α :=
  { v with items := v.items.dropLast ++ (v.items.getLast?.map f).toList }

/-- `*(rbegin() + 1)`. -/
def prev (v : Vec α) : Option α := v.items.dropLast.getLast?

end Vec

/-- `ConcurrentVector::State`. -/
structure State where
  mLastAllocated : BitVec 64
  size : BitVec 64
  deriving DecidableEq, Repr

/-- The mask of `mLastAllocated`. -/
def kLastAllocatedMask : BitVec 64 := (1 <<< 32) - 1

/-- The mask of the size. -/
def kSizeMask : BitVec 64 := ((1 <<< 32) - 1) <<< 32

/-- `State::Decode`. -/
def State.decode (state : BitVec 64) : State :=
  ⟨state &&& kLastAllocatedMask, (state &&& kSizeMask) >>> 32⟩

/-- `State::Encode`. -/
def State.encode (s : State) : BitVec 64 := (s.size <<< 32) ||| s.mLastAllocated

/-- Where the writer is: the thread that has the mutex in `emplace_back`. -/
inductive Writer (T : Type) where
  | idle
  /-- It has the mutex. -/
  | locked (x : T)
  /-- A new buffer is there. -/
  | allocated (x : T)
  | reserved (x : T)
  /-- The previous elements were copied. -/
  | copied (x : T)
  /-- The element is in the last buffer, which is new if `grown`. -/
  | pushed (grown : Bool)
  /-- Before the store of the state. -/
  | storing (state : State)
  | failed
  deriving DecidableEq, Repr

/-- Where a reader is in `operator[]`. -/
inductive Reader where
  | idle
  /-- It has loaded the state, and the index is below the size. -/
  | loaded (state : State) (index : Nat)
  | failed
  deriving DecidableEq, Repr

/-- The buffers, the word, the writer and the readers. -/
structure St (T : Type) where
  mState : BitVec 64
  mAllAllocatedElements : Vec (Vec T)
  writer : Writer T
  readers : List Reader
  /-- The arguments of the calls of `emplace_back`, in the order in which they got the mutex. -/
  inserted : List T
  /-- What the calls returned. -/
  returned : List Nat
  /-- The index and the element of each `operator[]`. -/
  reads : List (Nat × Option T)

/-- A step of the writer or of a reader. -/
inductive Label (T : Type) where
  /-- A call of `emplace_back` gets the mutex. -/
  | lock (x : T)
  /-- The next step of the writer. -/
  | write
  | load (reader index : Nat)
  | access (reader : Nat)
  deriving DecidableEq, Repr

variable {T : Type}

/-- The buffers that were allocated. -/
def St.buffers (s : St T) : List (Vec T) := s.mAllAllocatedElements.items

/-- The next step of the writer. -/
def write (s : St T) : Option (St T) :=
  match s.writer with
  | .locked x =>
    s.buffers.getLast?.map fun last =>
      if last.items.length < last.capacity then
        { s with
          mAllAllocatedElements := s.mAllAllocatedElements.modifyBack (·.emplaceBack x)
          writer := .pushed false }
      else
        { s with
          mAllAllocatedElements := s.mAllAllocatedElements.emplaceBack .empty
          writer := .allocated x }
  | .allocated x =>
    s.mAllAllocatedElements.prev.map fun prev =>
      { s with
        mAllAllocatedElements :=
          s.mAllAllocatedElements.modifyBack (·.reserve (prev.capacity * 2 % 2 ^ 64))
        writer := .reserved x }
  | .reserved x =>
    s.mAllAllocatedElements.prev.map fun prev =>
      if prev.items.length = prev.capacity then
        { s with
          mAllAllocatedElements := s.mAllAllocatedElements.modifyBack (·.insertFront prev.items)
          writer := .copied x }
      else { s with writer := .failed }
  | .copied x =>
    some { s with
      mAllAllocatedElements := s.mAllAllocatedElements.modifyBack (·.emplaceBack x)
      writer := .pushed true }
  | .pushed grown =>
    let state := State.decode s.mState
    some { s with
      writer := .storing
        ⟨if grown then state.mLastAllocated + 1 else state.mLastAllocated, state.size + 1⟩ }
  | .storing state =>
    some { s with
      mState := state.encode
      writer := .idle
      returned := s.returned ++ [(state.size - 1).toNat] }
  | _ => none

/-- What a reader of `index` finds in the word. -/
def load (s : St T) (index : Nat) : Reader :=
  let state := State.decode s.mState
  if index < state.size.toNat then .loaded state index else .failed

/-- `mAllAllocatedElements[state.mLastAllocated][index]`. -/
def access (s : St T) (state : State) (index : Nat) : Option T :=
  s.buffers[state.mLastAllocated.toNat]?.bind fun buffer => buffer.items[index]?

/-- One step; `none` if it is not enabled. -/
def step (s : St T) : Label T → Option (St T)
  | .lock x =>
    match s.writer with
    | .idle => some { s with writer := .locked x, inserted := s.inserted ++ [x] }
    | _ => none
  | .write => write s
  | .load r index =>
    match s.readers[r]? with
    | some .idle => some { s with readers := s.readers.set r (load s index) }
    | _ => none
  | .access r =>
    match s.readers[r]? with
    | some (.loaded state index) => some { s with
        readers := s.readers.set r .idle, reads := s.reads ++ [(index, access s state index)] }
    | _ => none

/-- `ConcurrentVector(initial_capacity)`, and `readers` threads. -/
def init (initialCapacity readers : Nat) : St T where
  mState := 0
  mAllAllocatedElements :=
    (Vec.empty.reserve 65 |>.emplaceBack .empty).modifyBack (·.reserve (max 1 initialCapacity))
  writer := .idle
  readers := List.replicate readers .idle
  inserted := []
  returned := []
  reads := []

/-- All runs with so many readers. -/
def sys (initialCapacity readers : Nat) : Sys (St T) (Label T) :=
  ofFun (init initialCapacity readers) step

/-! ## The word -/

theorem decode_mLastAllocated (w : BitVec 64) :
    (State.decode w).mLastAllocated.toNat = w.toNat % 2 ^ 32 := by
  have hmask : kLastAllocatedMask = Bitfield.mask 64 0 32 := by decide
  rw [State.decode, hmask, Bitfield.toNat_and_mask (by decide)]
  simp

theorem decode_size (w : BitVec 64) : (State.decode w).size.toNat = w.toNat / 2 ^ 32 := by
  have hmask : kSizeMask = Bitfield.mask 64 32 32 := by decide
  have hw := w.isLt
  have hfield := Bitfield.toNat_field (o := 32) (n := 32) (by decide) w
  rw [State.decode, hmask]
  refine hfield.trans (Nat.mod_eq_of_lt ?_)
  omega

theorem toNat_encode {s : State} (hl : s.mLastAllocated.toNat < 2 ^ 32)
    (hs : s.size.toNat < 2 ^ 32) :
    s.encode.toNat = 2 ^ 32 * s.size.toNat + s.mLastAllocated.toNat := by
  have hlt : s.size.toNat <<< 32 < 2 ^ 64 := by
    rw [Nat.shiftLeft_eq]
    omega
  rw [State.encode, BitVec.toNat_or, BitVec.toNat_shiftLeft, Nat.mod_eq_of_lt hlt,
    ← Nat.shiftLeft_add_eq_or_of_lt hl, Nat.shiftLeft_eq, Nat.mul_comm]

/-- A state that fits in its two halves is read back. -/
theorem decode_encode {s : State} (hl : s.mLastAllocated.toNat < 2 ^ 32)
    (hs : s.size.toNat < 2 ^ 32) : State.decode s.encode = s := by
  have hword := toNat_encode hl hs
  have hlast : (State.decode s.encode).mLastAllocated = s.mLastAllocated := by
    apply BitVec.eq_of_toNat_eq
    rw [decode_mLastAllocated, hword]
    omega
  have hsize : (State.decode s.encode).size = s.size := by
    apply BitVec.eq_of_toNat_eq
    rw [decode_size, hword]
    omega
  cases s
  simpa only [State.decode, State.mk.injEq] using And.intro hlast hsize

theorem toNat_add_one {w : BitVec 64} (h : w.toNat + 1 < 2 ^ 64) :
    (w + 1).toNat = w.toNat + 1 := by
  rw [BitVec.toNat_add]
  exact Nat.mod_eq_of_lt h

/-! ## The buffers -/

/-- The capacity of buffer `j`. -/
def capacityOf (initialCapacity j : Nat) : Nat := max 1 initialCapacity * 2 ^ j

theorem two_pow_le_capacityOf (c j : Nat) : 2 ^ j ≤ capacityOf c j :=
  Nat.le_mul_of_pos_left _ (Nat.lt_of_lt_of_le Nat.one_pos (Nat.le_max_left 1 c))

theorem capacityOf_succ (c j : Nat) : capacityOf c j * 2 = capacityOf c (j + 1) := by
  rw [capacityOf, capacityOf, Nat.pow_succ, Nat.mul_assoc]

/-- The buffers before the last one are full of what was inserted first. -/
def Full (c : Nat) (inserted : List T) (olds : List (Vec T)) : Prop :=
  Each (fun j b => b.items <+: inserted ∧ b.items.length = b.capacity ∧
    b.capacity = capacityOf c j ∧ b.moved = 0) olds

/-- A buffer never shrinks. -/
def Grows (bs bs' : List (Vec T)) : Prop :=
  ∀ (j : Nat) (b : Vec T), bs[j]? = some b →
    ∃ b' : Vec T, bs'[j]? = some b' ∧ b.items.length ≤ b'.items.length

/-- The word names a buffer that has as many elements as it says. -/
def Published (bs : List (Vec T)) (state : State) : Prop :=
  ∃ b, bs[state.mLastAllocated.toNat]? = some b ∧ state.size.toNat ≤ b.items.length

variable {c : Nat} {inserted : List T} {olds bs bs' : List (Vec T)}

theorem Full.append (h : Full c inserted olds) (x : T) : Full c (inserted ++ [x]) olds :=
  h.mono fun _ _ _ ⟨hp, hrest⟩ => ⟨hp.trans (List.prefix_append _ _), hrest⟩

theorem Full.concat (h : Full c inserted olds) {last : Vec T} (hp : last.items <+: inserted)
    (hfull : last.items.length = last.capacity) (hc : last.capacity = capacityOf c olds.length)
    (hm : last.moved = 0) : Full c inserted (olds ++ [last]) := by
  refine Each.append h fun i b hi => ?_
  cases i with
  | zero =>
    cases hi
    exact ⟨hp, hfull, hc, hm⟩
  | succ i => cases hi

/-- Each full buffer holds twice as many elements as the one before. -/
theorem Full.length_le (h : Full c inserted olds) (hlt : inserted.length < 2 ^ 32) :
    olds.length ≤ 32 := by
  rcases Nat.eq_zero_or_pos olds.length with h0 | hpos
  · omega
  · obtain ⟨hp, hfull, hc, -⟩ := h (olds.length - 1) _ (List.getElem?_eq_getElem (by omega))
    have hle := hp.length_le
    have hcap := two_pow_le_capacityOf c (olds.length - 1)
    have hpow : 2 ^ (olds.length - 1) < 2 ^ 32 := by omega
    have := (Nat.pow_lt_pow_iff_right (by decide)).mp hpow
    omega

theorem Grows.refl (bs : List (Vec T)) : Grows bs bs := fun _ b hj => ⟨b, hj, Nat.le_refl _⟩

theorem grows_concat (bs : List (Vec T)) (b : Vec T) : Grows bs (bs ++ [b]) := by
  intro j b' hj
  obtain ⟨hlt, -⟩ := List.getElem?_eq_some_iff.mp hj
  exact ⟨b', (List.getElem?_append_left hlt).trans hj, Nat.le_refl _⟩

theorem grows_last (olds : List (Vec T)) {last last' : Vec T}
    (hle : last.items.length ≤ last'.items.length) : Grows (olds ++ [last]) (olds ++ [last']) := by
  intro j b hj
  rcases Nat.lt_or_ge j olds.length with hlt | hge
  · rw [List.getElem?_append_left hlt] at hj ⊢
    exact ⟨b, hj, Nat.le_refl _⟩
  · rw [List.getElem?_append_right hge] at hj ⊢
    cases hk : j - olds.length with
    | zero =>
      rw [hk] at hj
      cases hj
      exact ⟨last', rfl, hle⟩
    | succ k =>
      rw [hk] at hj
      cases hj

theorem Published.grows {state : State} (h : Published bs state) (hg : Grows bs bs') :
    Published bs' state := by
  obtain ⟨b, hb, hle⟩ := h
  obtain ⟨b', hb', hle'⟩ := hg _ _ hb
  exact ⟨b', hb', Nat.le_trans hle hle'⟩

/-! ## The invariant -/

/-- What the writer has done, where `olds` are the full buffers and `last` is the last one. -/
def Phase (c : Nat) (writer : Writer T) (olds : List (Vec T)) (last : Vec T) (state : State)
    (inserted : List T) : Prop :=
  let cap := capacityOf c olds.length
  match writer with
  | .idle => state.mLastAllocated.toNat = olds.length ∧ state.size.toNat = inserted.length ∧
      last = ⟨inserted, cap, 0⟩ ∧ inserted.length ≤ cap
  | .locked x => ∃ before, inserted = before ++ [x] ∧
      state.mLastAllocated.toNat = olds.length ∧ state.size.toNat = before.length ∧
      last = ⟨before, cap, 0⟩ ∧ before.length ≤ cap
  | .allocated x => ∃ before prev, inserted = before ++ [x] ∧
      state.mLastAllocated.toNat + 1 = olds.length ∧ state.size.toNat = before.length ∧
      last = .empty ∧ olds.getLast? = some prev ∧ prev.items = before
  | .reserved x => ∃ before prev, inserted = before ++ [x] ∧
      state.mLastAllocated.toNat + 1 = olds.length ∧ state.size.toNat = before.length ∧
      last = ⟨[], cap, 0⟩ ∧ olds.getLast? = some prev ∧ prev.items = before
  | .copied x => ∃ before, inserted = before ++ [x] ∧
      state.mLastAllocated.toNat + 1 = olds.length ∧ state.size.toNat = before.length ∧
      last = ⟨before, cap, 0⟩ ∧ before.length < cap
  | .pushed grown => state.mLastAllocated.toNat + grown.toNat = olds.length ∧
      state.size.toNat + 1 = inserted.length ∧ last = ⟨inserted, cap, 0⟩ ∧ inserted.length ≤ cap
  | .storing new => new.mLastAllocated.toNat = olds.length ∧ new.size.toNat = inserted.length ∧
      state.size.toNat + 1 = inserted.length ∧ last = ⟨inserted, cap, 0⟩ ∧ inserted.length ≤ cap
  | .failed => False

/-- What a reader relies on. -/
def Reader.Ok (bs : List (Vec T)) : Reader → Prop
  | .loaded state index => index < state.size.toNat ∧ Published bs state
  | _ => True

/-- The buffers, the word and the readers agree. -/
structure Inv (c : Nat) (s : St T) : Prop where
  buffers : ∃ olds last, s.buffers = olds ++ [last] ∧ Full c s.inserted olds ∧
    Phase c s.writer olds last (State.decode s.mState) s.inserted
  outer : s.mAllAllocatedElements.capacity = 65 ∧ s.mAllAllocatedElements.moved = 0
  published : Published s.buffers (State.decode s.mState)
  readers : ∀ r ∈ s.readers, r.Ok s.buffers
  reads : ∀ r ∈ s.reads, r.1 < s.inserted.length ∧ r.2 = s.inserted[r.1]?
  returned : s.returned = List.range (State.decode s.mState).size.toNat

theorem Phase.initial {writer : Writer T} {last : Vec T} {state : State}
    (h : Phase c writer olds last state inserted) : last.items <+: inserted := by
  cases writer with
  | idle => exact h.2.2.1 ▸ List.prefix_refl _
  | locked x =>
    obtain ⟨before, rfl, -, -, rfl, -⟩ := h
    exact List.prefix_append _ _
  | allocated x =>
    obtain ⟨-, -, -, -, -, rfl, -⟩ := h
    exact List.nil_prefix
  | reserved x =>
    obtain ⟨-, -, -, -, -, rfl, -⟩ := h
    exact List.nil_prefix
  | copied x =>
    obtain ⟨before, rfl, -, -, rfl, -⟩ := h
    exact List.prefix_append _ _
  | pushed grown => exact h.2.2.1 ▸ List.prefix_refl _
  | storing new => exact h.2.2.2.1 ▸ List.prefix_refl _
  | failed => cases h

/-- Every buffer holds what was inserted first. -/
theorem Inv.initial {s : St T} (h : Inv c s) {b : Vec T} (hb : b ∈ s.buffers) :
    b.items <+: s.inserted := by
  obtain ⟨olds, last, hbs, hfull, hphase⟩ := h.buffers
  rw [hbs] at hb
  rcases List.mem_append.mp hb with hb | hb
  · obtain ⟨j, hj⟩ := List.mem_iff_getElem?.mp hb
    exact (hfull j b hj).1
  · rw [List.mem_singleton.mp hb]
    exact hphase.initial

/-! ## The steps of the writer -/

section Back

variable {α : Type} {v : Vec α} {xs : List α} {x : α}

theorem items_modifyBack (h : v.items = xs ++ [x]) (f : α → α) :
    (v.modifyBack f).items = xs ++ [f x] := by
  simp [Vec.modifyBack, h]

theorem prev_eq (h : v.items = xs ++ [x]) : v.prev = xs.getLast? := by
  simp [Vec.prev, h]

theorem emplaceBack_eq (h : v.items.length < v.capacity) (y : α) :
    v.emplaceBack y = ⟨v.items ++ [y], v.capacity, v.moved⟩ := if_pos h

end Back

section Write

variable {s s' : St T}

/-- The writer moves, and changes the buffers. -/
theorem Inv.set (h : Inv c s) {v : Vec (Vec T)} {w : Writer T} {last : Vec T}
    (hv : v.items = olds ++ [last]) (hfull : Full c s.inserted olds)
    (hphase : Phase c w olds last (State.decode s.mState) s.inserted)
    (hcap : v.capacity = 65 ∧ v.moved = 0) (hg : Grows s.buffers v.items) :
    Inv c { s with mAllAllocatedElements := v, writer := w } where
  buffers := ⟨olds, last, hv, hfull, hphase⟩
  outer := hcap
  published := h.published.grows hg
  readers r hr := by
    have hok := h.readers r hr
    cases r with
    | loaded state index => exact ⟨hok.1, hok.2.grows hg⟩
    | idle | failed => trivial
  reads := h.reads
  returned := h.returned

/-- The last full buffer, and the capacity of the next one. -/
theorem Full.last (h : Full c inserted olds) (hlt : inserted.length < 2 ^ 32) {prev : Vec T}
    (hprev : olds.getLast? = some prev) : prev.items.length = prev.capacity ∧
      prev.capacity * 2 % 2 ^ 64 = capacityOf c olds.length ∧ 0 < prev.capacity := by
  obtain ⟨before, rfl⟩ : ∃ before, olds = before ++ [prev] :=
    ⟨_, (List.dropLast_append_getLast? prev hprev).symm⟩
  obtain ⟨hp, hfull, hc, -⟩ := h before.length prev (by simp)
  have hle := hp.length_le
  have hpow := two_pow_le_capacityOf c before.length
  have hpos := Nat.two_pow_pos before.length
  refine ⟨hfull, ?_, by omega⟩
  rw [Nat.mod_eq_of_lt (by omega), hc, capacityOf_succ, List.length_append]
  rfl

theorem Inv.locked (h : Inv c s) (hlt : s.inserted.length < 2 ^ 32) {x : T}
    (hw : s.writer = .locked x) (hs : write s = some s') : Inv c s' := by
  obtain ⟨olds, last, hbs, hfull, hphase⟩ := h.buffers
  have hitems : s.mAllAllocatedElements.items = olds ++ [last] := hbs
  have hinitial := hphase.initial
  rw [hw] at hphase
  obtain ⟨before, hins, hla, hsize, rfl, hle⟩ := hphase
  simp only [write, hw, hbs, List.getLast?_concat, Option.map_some] at hs
  by_cases hroom : before.length < capacityOf c olds.length
  · rw [if_pos hroom] at hs
    cases hs
    have hlen : s.inserted.length = before.length + 1 := by rw [hins, List.length_append]; rfl
    have hnew := items_modifyBack hitems fun b => b.emplaceBack x
    have hback : Vec.emplaceBack ⟨before, capacityOf c olds.length, 0⟩ x =
        ⟨s.inserted, capacityOf c olds.length, 0⟩ := by
      rw [emplaceBack_eq hroom, hins]
    rw [hback] at hnew
    refine h.set hnew hfull ⟨?_, ?_, rfl, ?_⟩ h.outer ?_
    · exact hla
    · rw [hsize, hlen]
    · omega
    · rw [hnew, hbs]
      exact grows_last olds (by simp only [hlen]; omega)
  · rw [if_neg hroom] at hs
    cases hs
    have hcap : before.length = capacityOf c olds.length := by omega
    have hlen := hfull.length_le hlt
    have houter : s.mAllAllocatedElements.items.length < s.mAllAllocatedElements.capacity := by
      rw [hitems, h.outer.1, List.length_append, List.length_singleton]
      omega
    have hnew := emplaceBack_eq houter Vec.empty
    rw [hnew]
    refine h.set (by rw [hitems]) (hfull.concat hinitial hcap rfl rfl)
      ⟨before, _, hins, ?_, hsize, rfl, List.getLast?_concat, rfl⟩ h.outer ?_
    · rw [hla, List.length_append, List.length_singleton]
    · exact grows_concat _ _

theorem Inv.allocated (h : Inv c s) (hlt : s.inserted.length < 2 ^ 32) {x : T}
    (hw : s.writer = .allocated x) (hs : write s = some s') : Inv c s' := by
  obtain ⟨olds, last, hbs, hfull, hphase⟩ := h.buffers
  have hitems : s.mAllAllocatedElements.items = olds ++ [last] := hbs
  rw [hw] at hphase
  obtain ⟨before, prev, hins, hla, hsize, rfl, hprev, hbefore⟩ := hphase
  simp only [write, hw, prev_eq hitems, hprev, Option.map_some] at hs
  cases hs
  obtain ⟨-, hcap, -⟩ := hfull.last hlt hprev
  have hpow := two_pow_le_capacityOf c olds.length
  have hpos := Nat.two_pow_pos olds.length
  have hnew := items_modifyBack hitems fun b => b.reserve (prev.capacity * 2 % 2 ^ 64)
  have hback : Vec.reserve (Vec.empty : Vec T) (prev.capacity * 2 % 2 ^ 64) =
      ⟨[], capacityOf c olds.length, 0⟩ := by
    have hn : ¬ capacityOf c olds.length ≤ 0 := by omega
    rw [hcap]
    exact if_neg hn
  rw [hback] at hnew
  refine h.set hnew hfull ⟨before, prev, hins, hla, hsize, rfl, hprev, hbefore⟩ h.outer ?_
  rw [hnew, hbs]
  exact grows_last olds (Nat.le_refl _)

theorem Inv.reserved (h : Inv c s) (hlt : s.inserted.length < 2 ^ 32) {x : T}
    (hw : s.writer = .reserved x) (hs : write s = some s') : Inv c s' := by
  obtain ⟨olds, last, hbs, hfull, hphase⟩ := h.buffers
  have hitems : s.mAllAllocatedElements.items = olds ++ [last] := hbs
  rw [hw] at hphase
  obtain ⟨before, prev, hins, hla, hsize, rfl, hprev, rfl⟩ := hphase
  obtain ⟨hprevFull, hcap, hpos⟩ := hfull.last hlt hprev
  simp only [write, hw, prev_eq hitems, hprev, Option.map_some, if_pos hprevFull] at hs
  cases hs
  have hlen : s.inserted.length = prev.items.length + 1 := by
    rw [hins, List.length_append]
    rfl
  have hfit : prev.items.length < capacityOf c olds.length := by omega
  have hnew := items_modifyBack hitems fun b => b.insertFront prev.items
  have hback : Vec.insertFront ⟨[], capacityOf c olds.length, 0⟩ prev.items =
      ⟨prev.items, capacityOf c olds.length, 0⟩ := by
    have hroom : prev.items.length + ([] : List T).length ≤ capacityOf c olds.length :=
      Nat.le_of_lt hfit
    exact (if_pos hroom).trans (by rw [List.append_nil])
  rw [hback] at hnew
  refine h.set hnew hfull ⟨prev.items, hins, hla, hsize, rfl, hfit⟩ h.outer ?_
  rw [hnew, hbs]
  exact grows_last olds (Nat.zero_le _)

theorem Inv.copied (h : Inv c s) {x : T} (hw : s.writer = .copied x) (hs : write s = some s') :
    Inv c s' := by
  obtain ⟨olds, last, hbs, hfull, hphase⟩ := h.buffers
  have hitems : s.mAllAllocatedElements.items = olds ++ [last] := hbs
  rw [hw] at hphase
  obtain ⟨before, hins, hla, hsize, rfl, hlt⟩ := hphase
  simp only [write, hw, Option.some.injEq] at hs
  cases hs
  have hlen : s.inserted.length = before.length + 1 := by
    rw [hins, List.length_append]
    rfl
  have hnew := items_modifyBack hitems fun b => b.emplaceBack x
  have hback : Vec.emplaceBack ⟨before, capacityOf c olds.length, 0⟩ x =
      ⟨s.inserted, capacityOf c olds.length, 0⟩ := by
    rw [emplaceBack_eq hlt, hins]
  rw [hback] at hnew
  refine h.set hnew hfull ⟨hla, by rw [hsize, hlen], rfl, by omega⟩ h.outer ?_
  rw [hnew, hbs]
  refine grows_last olds ?_
  simp only [hlen]
  omega

theorem Inv.pushed (h : Inv c s) (hlt : s.inserted.length < 2 ^ 32) {grown : Bool}
    (hw : s.writer = .pushed grown) (hs : write s = some s') : Inv c s' := by
  obtain ⟨olds, last, hbs, hfull, hphase⟩ := h.buffers
  rw [hw] at hphase
  obtain ⟨hla, hsize, rfl, hle⟩ := hphase
  simp only [write, hw, Option.some.injEq] at hs
  cases hs
  have hlen := hfull.length_le hlt
  have hsize' : ((State.decode s.mState).size + 1).toNat = s.inserted.length := by
    rw [toNat_add_one (by omega), hsize]
  refine h.set hbs hfull ⟨?_, hsize', hsize, rfl, hle⟩ h.outer (Grows.refl _)
  cases grown with
  | false => exact hla
  | true =>
    rw [Bool.toNat_true] at hla
    rw [if_pos rfl, toNat_add_one (by omega), hla]

theorem Inv.storing (h : Inv c s) (hlt : s.inserted.length < 2 ^ 32) {state : State}
    (hw : s.writer = .storing state) (hs : write s = some s') : Inv c s' := by
  obtain ⟨olds, last, hbs, hfull, hphase⟩ := h.buffers
  rw [hw] at hphase
  obtain ⟨hla, hnew, hsize, rfl, hle⟩ := hphase
  simp only [write, hw, Option.some.injEq] at hs
  cases hs
  have hlen := hfull.length_le hlt
  have hdecode : State.decode state.encode = state := decode_encode (by omega) (by omega)
  have hreturned : (state.size - 1).toNat = (State.decode s.mState).size.toNat := by
    have hone : (1 : BitVec 64) ≤ state.size := by
      rw [BitVec.le_def]
      show 1 ≤ state.size.toNat
      omega
    rw [BitVec.toNat_sub_of_le hone]
    show state.size.toNat - 1 = _
    omega
  constructor
  · exact ⟨olds, _, hbs, hfull, by rw [hdecode]; exact ⟨hla, hnew, rfl, hle⟩⟩
  · exact h.outer
  · rw [hdecode]
    have hlast : s.buffers[state.mLastAllocated.toNat]? =
        some ⟨s.inserted, capacityOf c olds.length, 0⟩ := by
      rw [hbs, hla, List.getElem?_concat_length]
    exact ⟨_, hlast, hnew.le⟩
  · exact h.readers
  · exact h.reads
  · show s.returned ++ [(state.size - 1).toNat] = _
    rw [hdecode, hreturned, h.returned, hnew, ← hsize, List.range_succ]

theorem Inv.write (h : Inv c s) (hlt : s.inserted.length < 2 ^ 32)
    (hs : ConcurrentVector.write s = some s') : Inv c s' := by
  cases hw : s.writer with
  | idle =>
    simp only [ConcurrentVector.write, hw] at hs
    cases hs
  | locked x => exact h.locked hlt hw hs
  | allocated x => exact h.allocated hlt hw hs
  | reserved x => exact h.reserved hlt hw hs
  | copied x => exact h.copied hw hs
  | pushed grown => exact h.pushed hlt hw hs
  | storing state => exact h.storing hlt hw hs
  | failed =>
    simp only [ConcurrentVector.write, hw] at hs
    cases hs

end Write

/-! ## The other steps, and all runs -/

section Runs

variable {s s' : St T} {l : Label T}

theorem Inv.lock (h : Inv c s) {x : T} (hw : s.writer = .idle) :
    Inv c { s with writer := .locked x, inserted := s.inserted ++ [x] } := by
  obtain ⟨olds, last, hbs, hfull, hphase⟩ := h.buffers
  rw [hw] at hphase
  obtain ⟨hla, hsize, hlast, hle⟩ := hphase
  refine ⟨⟨olds, last, hbs, hfull.append x, s.inserted, rfl, hla, hsize, hlast, hle⟩, h.outer,
    h.published, h.readers, fun r hr => ?_, h.returned⟩
  obtain ⟨hlt, hread⟩ := h.reads r hr
  refine ⟨?_, hread.trans (List.getElem?_append_left hlt).symm⟩
  rw [List.length_append]
  omega

theorem Inv.set_reader (h : Inv c s) (r : Nat) {reader : Reader} (hok : reader.Ok s.buffers) :
    Inv c { s with readers := s.readers.set r reader } := by
  refine ⟨h.buffers, h.outer, h.published, fun q hq => ?_, h.reads, h.returned⟩
  rcases List.mem_or_eq_of_mem_set hq with hq | rfl
  · exact h.readers q hq
  · exact hok

theorem load_ok (h : Inv c s) (index : Nat) : (load s index).Ok s.buffers := by
  rw [load]
  by_cases hi : index < (State.decode s.mState).size.toNat
  · rw [if_pos hi]
    exact ⟨hi, h.published⟩
  · rw [if_neg hi]
    trivial

/-- A read finds the element that was inserted at its index. -/
theorem Inv.access_eq (h : Inv c s) {state : State} {index : Nat}
    (hok : (Reader.loaded state index).Ok s.buffers) :
    index < s.inserted.length ∧ access s state index = s.inserted[index]? := by
  obtain ⟨hi, b, hb, hle⟩ := hok
  have hinitial := h.initial (List.mem_of_getElem? hb)
  have hlt : index < b.items.length := Nat.lt_of_lt_of_le hi hle
  refine ⟨Nat.lt_of_lt_of_le hlt hinitial.length_le, ?_⟩
  rw [access, hb, Option.bind_some, List.getElem?_eq_getElem hlt, hinitial.getElem hlt,
    List.getElem?_eq_getElem]

theorem Inv.step (h : Inv c s) (hlt : s.inserted.length < 2 ^ 32)
    (hs : ConcurrentVector.step s l = some s') : Inv c s' := by
  cases l with
  | lock x =>
    simp only [ConcurrentVector.step] at hs
    split at hs
    · next hw =>
      cases hs
      exact h.lock hw
    · cases hs
  | write => exact h.write hlt hs
  | load r index =>
    simp only [ConcurrentVector.step] at hs
    split at hs
    · cases hs
      exact h.set_reader r (load_ok h index)
    · cases hs
  | access r =>
    simp only [ConcurrentVector.step] at hs
    split at hs
    · next state index hr =>
      cases hs
      have hread := h.access_eq (h.readers _ (List.mem_of_getElem? hr))
      have hidleOk : Reader.idle.Ok s.buffers := trivial
      have hidle := h.set_reader r hidleOk
      refine ⟨hidle.buffers, hidle.outer, hidle.published, hidle.readers, fun q hq => ?_,
        hidle.returned⟩
      rcases List.mem_append.mp hq with hq | hq
      · exact h.reads q hq
      · rw [List.mem_singleton.mp hq]
        exact hread
    · cases hs

/-- No step takes back an insertion. -/
theorem inserted_le (hs : ConcurrentVector.step s l = some s') :
    s.inserted.length ≤ s'.inserted.length := by
  cases l with
  | lock x =>
    simp only [ConcurrentVector.step] at hs
    split at hs
    · cases hs
      simp
    · cases hs
  | write =>
    simp only [ConcurrentVector.step, write] at hs
    split at hs
    · obtain ⟨last, -, rfl⟩ := Option.map_eq_some_iff.mp hs
      split <;> exact Nat.le_refl _
    · obtain ⟨prev, -, rfl⟩ := Option.map_eq_some_iff.mp hs
      exact Nat.le_refl _
    · obtain ⟨prev, -, rfl⟩ := Option.map_eq_some_iff.mp hs
      split <;> exact Nat.le_refl _
    · cases hs
      exact Nat.le_refl _
    · cases hs
      exact Nat.le_refl _
    · cases hs
      exact Nat.le_refl _
    · cases hs
  | load r index =>
    simp only [ConcurrentVector.step] at hs
    split at hs
    · cases hs
      exact Nat.le_refl _
    · cases hs
  | access r =>
    simp only [ConcurrentVector.step] at hs
    split at hs
    · cases hs
      exact Nat.le_refl _
    · cases hs

theorem init_buffers (c readers : Nat) :
    (init c readers : St T).buffers = [⟨[], max 1 c, 0⟩] := by
  have hpos : ¬ max 1 c ≤ 0 := by omega
  have hreserve : Vec.reserve (Vec.empty : Vec T) (max 1 c) = ⟨[], max 1 c, 0⟩ := if_neg hpos
  show [Vec.reserve (Vec.empty : Vec T) (max 1 c)] = _
  rw [hreserve]

theorem inv_init (c readers : Nat) : Inv c (init c readers : St T) := by
  have hdecode : State.decode 0 = ⟨0, 0⟩ := by decide
  have hcap : capacityOf c 0 = max 1 c := Nat.mul_one _
  refine ⟨⟨[], ⟨[], max 1 c, 0⟩, init_buffers c readers, ?_, ?_⟩, ⟨rfl, rfl⟩, ?_, ?_, ?_, ?_⟩
  · intro j b hj
    cases hj
  · show Phase c .idle [] _ (State.decode 0) []
    rw [hdecode]
    exact ⟨rfl, rfl, by rw [← hcap]; rfl, Nat.zero_le _⟩
  · show Published _ (State.decode 0)
    rw [hdecode, init_buffers]
    exact ⟨_, rfl, Nat.zero_le _⟩
  · intro r hr
    rw [List.eq_of_mem_replicate hr]
    trivial
  · intro r hr
    cases hr
  · show [] = List.range (State.decode 0).size.toNat
    rw [hdecode]
    rfl

theorem inv_reach {readers : Nat} (hs : (sys c readers).Reach Any s)
    (hlt : s.inserted.length < 2 ^ 32) : Inv c s := by
  induction hs with
  | init h0 =>
    cases h0
    exact inv_init c readers
  | step _ _ hn ih =>
    have hbefore := Nat.lt_of_le_of_lt (inserted_le hn) hlt
    exact (ih hbefore).step hbefore hn

/-- The calls that have the mutex. -/
def Writer.pending : Writer T → Nat
  | .idle => 0
  | _ => 1

/-- What the calls return, what the readers read, and what the readers rely on. -/
structure Correct (s : St T) : Prop where
  /-- `emplace_back` returns 0, 1, 2, … in the order of the insertions. -/
  returned : s.returned = List.range s.returned.length
  /-- A call that has not returned is the last one. -/
  pending : s.returned.length + s.writer.pending = s.inserted.length
  /-- `operator[](i)` returns what the call `i` inserted. -/
  reads : ∀ r ∈ s.reads, r.1 < s.inserted.length ∧ r.2 = s.inserted[r.1]?
  /-- The word names a buffer that holds all elements up to its size. -/
  published : ∃ b, s.buffers[(State.decode s.mState).mLastAllocated.toNat]? = some b ∧
    b.items.take (State.decode s.mState).size.toNat =
      s.inserted.take (State.decode s.mState).size.toNat ∧
    (State.decode s.mState).size.toNat = s.returned.length ∧
    (State.decode s.mState).size.toNat ≤ b.items.length
  /-- No buffer is moved, nor the elements of one. -/
  reserved : s.buffers.length ≤ 65 ∧ s.mAllAllocatedElements.moved = 0 ∧
    ∀ b ∈ s.buffers, b.moved = 0
  asserted : s.writer ≠ .failed

theorem Phase.moved {writer : Writer T} {last : Vec T} {state : State}
    (h : Phase c writer olds last state inserted) : last.moved = 0 := by
  cases writer with
  | idle => exact h.2.2.1 ▸ rfl
  | locked x =>
    obtain ⟨-, -, -, -, rfl, -⟩ := h
    rfl
  | allocated x =>
    obtain ⟨-, -, -, -, -, rfl, -⟩ := h
    rfl
  | reserved x =>
    obtain ⟨-, -, -, -, -, rfl, -⟩ := h
    rfl
  | copied x =>
    obtain ⟨-, -, -, -, rfl, -⟩ := h
    rfl
  | pushed grown => exact h.2.2.1 ▸ rfl
  | storing new => exact h.2.2.2.1 ▸ rfl
  | failed => cases h

/-- The size in the word, while a call is in progress or not. -/
theorem Phase.pending {writer : Writer T} {last : Vec T} {state : State}
    (h : Phase c writer olds last state inserted) :
    state.size.toNat + writer.pending = inserted.length ∧ writer ≠ .failed := by
  cases writer with
  | idle => exact ⟨h.2.1, nofun⟩
  | locked x =>
    obtain ⟨before, rfl, -, hsize, -⟩ := h
    rw [hsize, List.length_append]
    exact ⟨rfl, nofun⟩
  | allocated x | reserved x =>
    obtain ⟨before, prev, rfl, -, hsize, -⟩ := h
    rw [hsize, List.length_append]
    exact ⟨rfl, nofun⟩
  | copied x =>
    obtain ⟨before, rfl, -, hsize, -⟩ := h
    rw [hsize, List.length_append]
    exact ⟨rfl, nofun⟩
  | pushed grown => exact ⟨h.2.1, nofun⟩
  | storing new => exact ⟨h.2.2.1, nofun⟩
  | failed => cases h

theorem Inv.correct (h : Inv c s) (hlt : s.inserted.length < 2 ^ 32) : Correct s := by
  obtain ⟨olds, last, hbs, hfull, hphase⟩ := h.buffers
  obtain ⟨hpending, hasserted⟩ := hphase.pending
  have hreturned : s.returned.length = (State.decode s.mState).size.toNat := by
    rw [h.returned, List.length_range]
  refine ⟨by rw [hreturned]; exact h.returned, by rw [hreturned]; exact hpending, h.reads, ?_,
    ⟨?_, h.outer.2, fun b hb => ?_⟩, hasserted⟩
  · obtain ⟨b, hb, hle⟩ := h.published
    have hinitial := h.initial (List.mem_of_getElem? hb)
    refine ⟨b, hb, ?_, hreturned.symm, hle⟩
    obtain ⟨rest, hrest⟩ := hinitial
    rw [← hrest, List.take_append_of_le_length hle]
  · have hlen := hfull.length_le hlt
    rw [hbs, List.length_append, List.length_singleton]
    omega
  · rw [hbs] at hb
    rcases List.mem_append.mp hb with hb | hb
    · obtain ⟨j, hj⟩ := List.mem_iff_getElem?.mp hb
      exact (hfull j b hj).2.2.2
    · rw [List.mem_singleton.mp hb]
      exact hphase.moved

/-- In every run of fewer than 2^32 calls, with any readers between the steps of the writers. -/
theorem emplaceBack_correct (initialCapacity readers : Nat) (s : St T)
    (hs : (sys initialCapacity readers).Reach Any s) (hlt : s.inserted.length < 2 ^ 32) :
    Correct s := (inv_reach hs hlt).correct hlt

/-- A reader loads the word, the vector grows, and the reader reads the first buffer. -/
theorem emplaceBack_correct_grown : ∃ s : St Nat, s.reads = [(0, some 7)] ∧
    s.returned = [0, 1] ∧ s.buffers.length = 2 ∧ Correct s := by
  have hr : ∀ s, runLabels step (init 1 1) [.lock 7, .write, .write, .write, .load 0 0, .lock 8,
      .write, .write, .write, .write, .write, .write, .access 0] = some s →
      s.inserted.length < 2 ^ 32 → Correct s := fun s hs =>
    emplaceBack_correct 1 1 s
      (reach_runLabels (fun _ => True) (.init rfl) _ (fun _ _ => trivial) hs)
  exact ⟨_, rfl, rfl, rfl, hr _ rfl (by decide)⟩

end Runs

end ConcurrentVector

end AsyncLib
