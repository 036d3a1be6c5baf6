import AsyncLib.Lib.Modify
import AsyncLib.Lib.System

/-!
# `HostContext::RunWhenReady`

`async/context/host_context.cpp`: a set version of `AndThen`. The unavailable values are collected,
and the callee runs at once, in the callback of the one unavailable value, or in the callback that
takes the shared counter to 0.

`AndThen` is one step, as in `Context/Heap.lean`: the callback waits for its value, or the caller
runs it before it goes on. A waiting callback starts some time after its value has become available;
the thread that resolves a value runs its callbacks one after the other, here they may also
interleave.

* `Call`: the variables of a call and its callbacks; `advance` and `fire` are the steps of the
  caller and of a callback, where `avail` tells the available values.
* `Inv`: the counter is the number of the callbacks still to come, and a callback to come keeps the
  data alive. It is kept by every step, and when more values become available.
* `runWhenReady_correct`: the callee and the data, in every run.
-/

namespace AsyncLib

namespace RunWhenReady

open Sys

/-! ## The code -/

/-- Where a callback is. The direct call of the callee is a callback that starts at `callee`. -/
inductive Callback (α : Type) where
  /-- In the waiter list of the value. -/
  | waiting (v : α)
  /-- At its first operation: the decrement, or the callee if there is no counter. -/
  | enter
  /-- At the call of the callee. -/
  | callee
  /-- In the callee. -/
  | running
  /-- At `delete data`. -/
  | delete
  | done
  deriving DecidableEq, Repr

/-- Where the caller is. -/
inductive Pc (α : Type) where
  /-- In the first loop, with the values still to be looked at. -/
  | scan (rest : List α)
  /-- In the second loop, with the values still to be waited for. -/
  | register (rest : List α)
  /-- In a callback or the callee that it runs itself. -/
  | inline (rest : List α)
  | returned
  deriving DecidableEq, Repr

/-- The object `CounterAndCallee`. -/
inductive Data where
  | none
  | alive
  | freed
  deriving DecidableEq, Repr

/-- A call of `RunWhenReady`. -/
structure Call (α : Type) where
  pc : Pc α
  unavailableValues : List α
  counter : Nat
  data : Data
  callbacks : List (Callback α)
  /-- How often the callee was called. -/
  calls : Nat
  /-- How often the data was deleted. -/
  frees : Nat
  /-- The data was used after its deletion. -/
  misused : Bool

variable {α : Type}

/-- The call at its start. -/
def Call.start (values : List α) : Call α := ⟨.scan values, [], 0, .none, [], 0, 0, false⟩

/-- An access to `*data`; a callback without a counter makes none. -/
def Call.touch (c : Call α) : Call α := { c with misused := c.misused || c.data == .freed }

/-- Callback `j` moves. -/
def Call.goto (c : Call α) (j : Nat) (x : Callback α) : Call α :=
  { c with callbacks := c.callbacks.set j x }

/-- A step of the caller. -/
def Call.advance (avail : α → Bool) (c : Call α) : Option (Call α) :=
  match c.pc with
  | .scan (v :: rest) =>
    some { c with
      pc := .scan rest
      unavailableValues := if avail v then c.unavailableValues else c.unavailableValues ++ [v] }
  | .scan [] =>
    if c.unavailableValues.length = 0 then some { c with pc := .inline [], callbacks := [.callee] }
    else if c.unavailableValues.length = 1 then some { c with pc := .register c.unavailableValues }
    else some { c with
      pc := .register c.unavailableValues
      counter := c.unavailableValues.length
      data := .alive }
  | .register (v :: rest) =>
    if avail v then some { c with pc := .inline rest, callbacks := c.callbacks ++ [.enter] }
    else some { c with pc := .register rest, callbacks := c.callbacks ++ [.waiting v] }
  | .register [] => some { c with pc := .returned }
  | .inline rest =>
    match c.callbacks.getLast? with
    | some .done => some { c with pc := .register rest }
    | _ => none
  | .returned => none

/-- A step of callback `j`. -/
def Call.fire (avail : α → Bool) (c : Call α) (j : Nat) : Option (Call α) :=
  match c.callbacks[j]? with
  | some (.waiting v) => if avail v then some (c.goto j .enter) else none
  | some .enter =>
    if c.data = .none then some (c.goto j .callee)
    else some ({ c.touch with counter := c.counter - 1 }.goto j
      (if c.counter = 1 then .callee else .done))
  | some .callee => some ({ c.touch with calls := c.calls + 1 }.goto j .running)
  | some .running => some (c.goto j (if c.data = .none then .done else .delete))
  | some .delete =>
    some ({ c.touch with data := .freed, frees := c.frees + 1 }.goto j .done)
  | _ => none

/-- The values and the call. -/
structure St (α : Type) where
  avail : α → Bool
  call : Call α

/-- A value is resolved, or the caller or a callback makes a step. -/
inductive Label (α : Type) where
  /-- `NotifyAvailable` on a value. -/
  | resolve (v : α)
  | advance
  | fire (j : Nat)
  deriving DecidableEq, Repr

/-- One step; `none` if it is not enabled. -/
def step [DecidableEq α] (s : St α) : Label α → Option (St α)
  | .resolve v =>
    if s.avail v then none else some { s with avail := Function.update s.avail v true }
  | .advance => (s.call.advance s.avail).map fun c => { s with call := c }
  | .fire j => (s.call.fire s.avail j).map fun c => { s with call := c }

/-- The runs of a call, from any pattern of available values. -/
def sys [DecidableEq α] (avail : α → Bool) (values : List α) : Sys (St α) (Label α) :=
  Sys.ofFun ⟨avail, .start values⟩ step

/-! ## The invariant -/

/-- The callback has not used the counter yet. -/
def Callback.pending : Callback α → Bool
  | .waiting _ | .enter => true
  | _ => false

/-- The callback is about to run the callee. -/
def Callback.atCallee : Callback α → Bool
  | .callee => true
  | _ => false

/-- The callback has still to delete the data, if there is any. -/
def Callback.last : Callback α → Bool
  | .callee | .running | .delete => true
  | _ => false

/-- The callback is about to delete the data. -/
def Callback.atDelete : Callback α → Bool
  | .delete => true
  | _ => false

/-- The values for which no callback was made yet, after the scan. -/
def Pc.rest : Pc α → List α
  | .register rest | .inline rest => rest
  | .scan _ | .returned => []

/-- The caller is still looking at the values. -/
def Pc.scanning : Pc α → Bool
  | .scan _ => true
  | _ => false

/-- The callbacks that have not used the counter yet. -/
def Call.due (c : Call α) : Nat := c.callbacks.countP Callback.pending + c.pc.rest.length

/-- The value is available, or the call is going to look at it or to wait for it, or waits. -/
def Call.Watched (avail : α → Bool) (c : Call α) (v : α) : Prop :=
  avail v = true ∨ (∃ rest, c.pc = .scan rest ∧ (v ∈ rest ∨ v ∈ c.unavailableValues)) ∨
    v ∈ c.pc.rest ∨ .waiting v ∈ c.callbacks

/-- The first loop has made nothing. -/
structure Call.Scanning (c : Call α) : Prop where
  callbacks : c.callbacks = []
  data : c.data = .none
  calls : c.calls = 0
  frees : c.frees = 0

/-- After it, the callee is called by the last callback, which deletes the data. -/
structure Call.Registered (c : Call α) : Prop where
  once : c.calls + c.callbacks.countP Callback.atCallee + (if c.due = 0 then 0 else 1) = 1
  shared : c.data ≠ .none → c.counter = c.due ∧
    c.frees + c.callbacks.countP Callback.last + (if c.due = 0 then 0 else 1) = 1
  alone : c.data = .none → c.due ≤ 1 ∧ c.frees = 0 ∧ c.callbacks.countP Callback.atDelete = 0

/-- The invariant (module doc). -/
structure Inv (avail : α → Bool) (values : List α) (c : Call α) : Prop where
  watched : ∀ v ∈ values, c.Watched avail v
  scanning : c.pc.scanning = true → c.Scanning
  registered : c.pc.scanning = false → c.Registered
  freed : c.data = .freed ↔ c.frees ≠ 0
  misused : c.misused = false

section Moves

variable {c c' : Call α} {j : Nat} {x y : Callback α} {avail : α → Bool} {values : List α}

/-- More values are available. -/
theorem Inv.mono (h : Inv avail values c) {avail' : α → Bool}
    (hle : ∀ v ∈ values, avail v = true → avail' v = true) : Inv avail' values c where
  watched v hv := (h.watched v hv).imp_left (hle v hv)
  scanning := h.scanning
  registered := h.registered
  freed := h.freed
  misused := h.misused

theorem Inv.start (avail : α → Bool) (values : List α) : Inv avail values (.start values) where
  watched _ hv := .inr (.inl ⟨values, rfl, .inl hv⟩)
  scanning _ := ⟨rfl, rfl, rfl, rfl⟩
  registered := nofun
  freed := ⟨nofun, fun h => absurd rfl h⟩
  misused := rfl

/-- If no callback is to come, every value is available. -/
theorem Inv.ready (h : Inv avail values c) (hs : c.pc.scanning = false) (hd : c.due = 0) :
    ∀ v ∈ values, avail v = true := by
  intro v hv
  rw [Call.due, Nat.add_eq_zero_iff] at hd
  rcases h.watched v hv with ha | ⟨rest, hpc, -⟩ | hr | hw
  · exact ha
  · rw [hpc] at hs
    cases hs
  · rw [List.eq_nil_of_length_eq_zero hd.2] at hr
    cases hr
  · have := List.countP_eq_zero.mp hd.1 _ hw
    exact absurd rfl this

/-- A callback makes the call past its first loop. -/
theorem Inv.of_callback (h : Inv avail values c) (hj : c.callbacks[j]? = some x) :
    c.pc.scanning = false := by
  cases hs : c.pc.scanning with
  | false => rfl
  | true =>
    rw [(h.scanning hs).callbacks] at hj
    cases hj

/-- Callback `j` moves from `x` to `y`, and the caller does not. -/
structure Moved (c c' : Call α) (j : Nat) (x y : Callback α) : Prop where
  entry : c.callbacks[j]? = some x
  pc : c'.pc = c.pc
  callbacks : c'.callbacks = c.callbacks.set j y

theorem Moved.countP (m : Moved c c' j x y) (p : Callback α → Bool) :
    c'.callbacks.countP p + (p x).toNat = c.callbacks.countP p + (p y).toNat := by
  rw [m.callbacks]
  exact countP_set_add m.entry

theorem Moved.due (m : Moved c c' j x y) :
    c'.due + x.pending.toNat = c.due + y.pending.toNat := by
  have := m.countP Callback.pending
  simp only [Call.due, m.pc]
  omega

/-- The values are watched, if a callback that wakes has its value. -/
theorem Moved.watched (m : Moved c c' j x y) (h : Inv avail values c)
    (hx : ∀ v, x = .waiting v → avail v = true) : ∀ v ∈ values, c'.Watched avail v := by
  intro v hv
  rw [Call.Watched, m.pc, m.callbacks]
  rcases h.watched v hv with ha | ⟨rest, hs, -⟩ | hr | hw
  · exact .inl ha
  · have := h.of_callback m.entry
    rw [hs] at this
    cases this
  · exact .inr (.inr (.inl hr))
  · obtain ⟨i, hi⟩ := List.mem_iff_getElem?.mp hw
    by_cases hij : i = j
    · rw [hij, m.entry] at hi
      exact .inl (hx v (Option.some.inj hi))
    · refine .inr (.inr (.inr (List.mem_iff_getElem?.mpr ⟨i, ?_⟩)))
      rw [List.getElem?_set_ne (Ne.symm hij), hi]

theorem Moved.inv (m : Moved c c' j x y) (h : Inv avail values c)
    (hx : ∀ v, x = .waiting v → avail v = true) (hreg : c.Registered → c'.Registered)
    (hfreed : c'.data = .freed ↔ c'.frees ≠ 0) (hmis : c'.misused = false) : Inv avail values c'
    where
  watched := m.watched h hx
  scanning hs := by
    rw [m.pc, h.of_callback m.entry] at hs
    cases hs
  registered _ := hreg (h.registered (h.of_callback m.entry))
  freed := hfreed
  misused := hmis

/-- An access to data that is not deleted. -/
theorem Inv.touch (h : Inv avail values c) (hf : c.frees = 0) : c.touch.misused = false := by
  have hd : c.data ≠ .freed := fun hd => h.freed.mp hd hf
  simp [Call.touch, h.misused, hd]

/-- A waiting callback starts: its value has become available. -/
theorem Inv.wake (h : Inv avail values c) {v : α} (hj : c.callbacks[j]? = some (.waiting v))
    (hv : avail v = true) : Inv avail values (c.goto j .enter) := by
  have m : Moved c (c.goto j .enter) j (.waiting v) .enter := ⟨hj, rfl, rfl⟩
  refine m.inv h (fun w hw => by cases hw; exact hv) (fun hreg => ?_) h.freed h.misused
  obtain ⟨honce, hshared, halone⟩ := hreg
  have hdue : (c.goto j .enter).due = c.due := Nat.add_right_cancel m.due
  refine ⟨?_, ?_, ?_⟩
  · rw [hdue, show List.countP _ _ = _ from m.countP Callback.atCallee]
    exact honce
  · rw [hdue, show List.countP _ _ = _ from m.countP Callback.last]
    exact hshared
  · rw [hdue, show List.countP _ _ = _ from m.countP Callback.atDelete]
    exact halone

/-- A callback without a counter. -/
theorem Inv.enter_alone (h : Inv avail values c) (hj : c.callbacks[j]? = some .enter)
    (hd : c.data = .none) : Inv avail values (c.goto j .callee) := by
  have m : Moved c (c.goto j .callee) j .enter .callee := ⟨hj, rfl, rfl⟩
  refine m.inv h nofun (fun hreg => ?_) h.freed h.misused
  obtain ⟨honce, -, halone⟩ := hreg
  obtain ⟨hone, hfrees, hdel⟩ := halone hd
  have hdue : (c.goto j .callee).due + 1 = c.due := m.due
  have hcallee : (c.goto j .callee).callbacks.countP Callback.atCallee =
    c.callbacks.countP Callback.atCallee + 1 := m.countP Callback.atCallee
  have hdelete : (c.goto j .callee).callbacks.countP Callback.atDelete =
    c.callbacks.countP Callback.atDelete := m.countP Callback.atDelete
  rw [if_neg (by omega)] at honce
  refine ⟨?_, fun hne => absurd hd hne, fun _ => ⟨by omega, hfrees, hdelete.trans hdel⟩⟩
  show c.calls + _ + _ = 1
  rw [hcallee, if_pos (by omega)]
  omega

/-- The decrement of the counter. -/
theorem Inv.enter_shared (h : Inv avail values c) (hj : c.callbacks[j]? = some .enter)
    (hd : c.data ≠ .none) :
    Inv avail values ({ c.touch with counter := c.counter - 1 }.goto j
      (if c.counter = 1 then .callee else .done)) := by
  generalize hy : (if c.counter = 1 then Callback.callee else .done) = y
  generalize hc : { c.touch with counter := c.counter - 1 }.goto j y = c'
  have m : Moved c c' j .enter y := ⟨hj, by rw [← hc]; rfl, by rw [← hc]; rfl⟩
  have hcalls : c'.calls = c.calls := by rw [← hc]; rfl
  have hfrees : c'.frees = c.frees := by rw [← hc]; rfl
  have hdata : c'.data = c.data := by rw [← hc]; rfl
  have hcounter : c'.counter = c.counter - 1 := by rw [← hc]; rfl
  have hreg := h.registered (h.of_callback hj)
  obtain ⟨honce, hshared, -⟩ := hreg
  obtain ⟨hcd, hlast⟩ := hshared hd
  have hdue : c'.due + 1 = c.due + y.pending.toNat := m.due
  have hcallee : c'.callbacks.countP Callback.atCallee =
    c.callbacks.countP Callback.atCallee + y.atCallee.toNat := m.countP Callback.atCallee
  have hlast' : c'.callbacks.countP Callback.last =
    c.callbacks.countP Callback.last + y.last.toNat := m.countP Callback.last
  have hpend : y.pending.toNat = 0 := by rw [← hy]; split <;> rfl
  rw [if_neg (by omega)] at honce hlast
  refine m.inv h nofun (fun _ => ⟨?_, fun _ => ⟨by omega, ?_⟩, fun hno => ?_⟩) ?_ ?_
  · rw [hcalls, hcallee, ← hy]
    by_cases hone : c.counter = 1
    · rw [if_pos hone, if_pos (by omega)]
      simp only [Callback.atCallee, Bool.toNat_true]
      omega
    · rw [if_neg hone, if_neg (by omega)]
      exact honce
  · rw [hfrees, hlast', ← hy]
    by_cases hone : c.counter = 1
    · rw [if_pos hone, if_pos (by omega)]
      simp only [Callback.last, Bool.toNat_true]
      omega
    · rw [if_neg hone, if_neg (by omega)]
      exact hlast
  · exact absurd (hdata ▸ hno) hd
  · rw [hdata, hfrees]
    exact h.freed
  · rw [← hc]
    exact h.touch (by omega)

/-- A callback that is counted is there. -/
theorem one_le_countP (p : Callback α → Bool) (hj : c.callbacks[j]? = some x) (hx : p x = true) :
    1 ≤ c.callbacks.countP p :=
  List.countP_pos_iff.mpr ⟨x, List.mem_of_getElem? hj, hx⟩

/-- Nothing was deleted before the last callback deletes it. -/
theorem Inv.frees_eq (h : Inv avail values c) (hj : c.callbacks[j]? = some x) (hx : x.last = true) :
    c.frees = 0 := by
  have hreg := h.registered (h.of_callback hj)
  have hlast := one_le_countP Callback.last hj hx
  by_cases hd : c.data = .none
  · exact (hreg.alone hd).2.1
  · have := (hreg.shared hd).2
    omega

/-- The callee is called. -/
theorem Inv.callee (h : Inv avail values c) (hj : c.callbacks[j]? = some .callee) :
    Inv avail values ({ c.touch with calls := c.calls + 1 }.goto j .running) := by
  have hmis := h.touch (h.frees_eq hj rfl)
  generalize hc : { c.touch with calls := c.calls + 1 }.goto j .running = c'
  have m : Moved c c' j .callee .running := ⟨hj, by rw [← hc]; rfl, by rw [← hc]; rfl⟩
  have hcalls : c'.calls = c.calls + 1 := by rw [← hc]; rfl
  have hfrees : c'.frees = c.frees := by rw [← hc]; rfl
  have hdata : c'.data = c.data := by rw [← hc]; rfl
  have hcounter : c'.counter = c.counter := by rw [← hc]; rfl
  have hdue : c'.due = c.due := m.due
  have hcallee : c'.callbacks.countP Callback.atCallee + 1 =
    c.callbacks.countP Callback.atCallee := m.countP Callback.atCallee
  have hlast : c'.callbacks.countP Callback.last =
    c.callbacks.countP Callback.last := Nat.add_right_cancel (m.countP Callback.last)
  have hdelete : c'.callbacks.countP Callback.atDelete =
    c.callbacks.countP Callback.atDelete := m.countP Callback.atDelete
  refine m.inv h nofun (fun hreg => ⟨?_, ?_, ?_⟩) ?_ ?_
  · have := hreg.once
    rw [hdue, hcalls]
    omega
  · rw [hdue, hdata, hcounter, hfrees, hlast]
    exact hreg.shared
  · rw [hdue, hdata, hfrees, hdelete]
    exact hreg.alone
  · rw [hdata, hfrees]
    exact h.freed
  · rw [← hc]
    exact hmis

/-- The callee returns. -/
theorem Inv.running (h : Inv avail values c) (hj : c.callbacks[j]? = some .running) :
    Inv avail values (c.goto j (if c.data = .none then .done else .delete)) := by
  generalize hy : (if c.data = .none then Callback.done else .delete) = y
  have m : Moved c (c.goto j y) j .running y := ⟨hj, rfl, rfl⟩
  have hpend : y.pending.toNat = 0 := by rw [← hy]; split <;> rfl
  have hno : y.atCallee.toNat = 0 := by rw [← hy]; split <;> rfl
  have hdue : (c.goto j y).due = c.due := by
    have : (c.goto j y).due = c.due + y.pending.toNat := m.due
    omega
  have hcallee : (c.goto j y).callbacks.countP Callback.atCallee =
      c.callbacks.countP Callback.atCallee := by
    have : (c.goto j y).callbacks.countP Callback.atCallee = c.callbacks.countP Callback.atCallee +
      y.atCallee.toNat := m.countP Callback.atCallee
    omega
  refine m.inv h nofun (fun hreg => ⟨?_, fun hd => ?_, fun hd => ?_⟩) h.freed h.misused
  · rw [hdue, hcallee]
    exact hreg.once
  · change c.data ≠ .none at hd
    have hdel : Callback.delete = y := by rw [← hy, if_neg hd]
    have hlast := m.countP Callback.last
    rw [← hdel] at hlast hdue ⊢
    rw [hdue, show List.countP _ _ = _ from Nat.add_right_cancel hlast]
    exact hreg.shared hd
  · change c.data = .none at hd
    have hdone : Callback.done = y := by rw [← hy, if_pos hd]
    have hdelete := m.countP Callback.atDelete
    rw [← hdone] at hdelete hdue ⊢
    rw [hdue, show List.countP _ _ = _ from hdelete]
    exact hreg.alone hd

/-- The data is deleted. -/
theorem Inv.delete (h : Inv avail values c) (hj : c.callbacks[j]? = some .delete) :
    Inv avail values ({ c.touch with data := .freed, frees := c.frees + 1 }.goto j .done) := by
  have hmis := h.touch (h.frees_eq hj rfl)
  have hreg := h.registered (h.of_callback hj)
  have hdata : c.data ≠ .none := fun hno => by
    have := (hreg.alone hno).2.2
    have := one_le_countP Callback.atDelete hj rfl
    omega
  generalize hc : { c.touch with data := .freed, frees := c.frees + 1 }.goto j .done = c'
  have m : Moved c c' j .delete .done := ⟨hj, by rw [← hc]; rfl, by rw [← hc]; rfl⟩
  have hcalls : c'.calls = c.calls := by rw [← hc]; rfl
  have hfrees : c'.frees = c.frees + 1 := by rw [← hc]; rfl
  have hdata' : c'.data = .freed := by rw [← hc]; rfl
  have hcounter : c'.counter = c.counter := by rw [← hc]; rfl
  have hdue : c'.due = c.due := m.due
  have hcallee : c'.callbacks.countP Callback.atCallee =
    c.callbacks.countP Callback.atCallee := m.countP Callback.atCallee
  have hlast : c'.callbacks.countP Callback.last + 1 =
    c.callbacks.countP Callback.last := m.countP Callback.last
  obtain ⟨hcd, hone⟩ := hreg.shared hdata
  refine m.inv h nofun (fun hreg => ⟨?_, fun _ => ⟨by omega, ?_⟩, fun hno => ?_⟩) ?_ ?_
  · rw [hdue, hcalls, hcallee]
    exact hreg.once
  · rw [hdue, hfrees]
    omega
  · rw [hdata'] at hno
    cases hno
  · rw [hdata', hfrees]
    exact ⟨fun _ => Nat.succ_ne_zero _, fun _ => rfl⟩
  · rw [← hc]
    exact hmis

/-- A step of a callback keeps the invariant. -/
theorem Inv.fire (h : Inv avail values c) (hf : c.fire avail j = some c') : Inv avail values c' := by
  unfold Call.fire at hf
  split at hf
  · rename_i v hj
    obtain ⟨hv, hc⟩ := Option.ite_none_right_eq_some.mp hf
    cases hc
    exact h.wake hj hv
  · rename_i hj
    split at hf
    · rename_i hd
      cases hf
      exact h.enter_alone hj hd
    · rename_i hd
      cases hf
      exact h.enter_shared hj hd
  · rename_i hj
    cases hf
    exact h.callee hj
  · rename_i hj
    cases hf
    exact h.running hj
  · rename_i hj
    cases hf
    exact h.delete hj
  · cases hf

/-- A step of the first loop. -/
theorem Inv.scan_cons (h : Inv avail values c) {v : α} {rest : List α}
    (hpc : c.pc = .scan (v :: rest)) :
    Inv avail values { c with
      pc := .scan rest
      unavailableValues := if avail v then c.unavailableValues else c.unavailableValues ++ [v] } := by
  obtain ⟨hcb, hdata, hcalls, hfrees⟩ := h.scanning (by rw [hpc]; rfl)
  refine ⟨fun w hw => ?_, fun _ => ⟨hcb, hdata, hcalls, hfrees⟩, nofun, h.freed, h.misused⟩
  have hcall := h.watched w hw
  rw [Call.Watched, hpc, hcb] at hcall
  rcases hcall with ha | ⟨rest', he, hmem⟩ | hr | hw
  · exact .inl ha
  · cases he
    by_cases hav : avail v = true
    · rcases hmem with hmem | hmem
      · rcases List.mem_cons.mp hmem with rfl | hmem
        · exact .inl hav
        · exact .inr (.inl ⟨rest, rfl, .inl hmem⟩)
      · exact .inr (.inl ⟨rest, rfl, .inr (by simp only [if_pos hav]; exact hmem)⟩)
    · have hun : w ∈ c.unavailableValues ++ [v] → Call.Watched avail
          { c with
            pc := .scan rest
            unavailableValues := if avail v then c.unavailableValues
              else c.unavailableValues ++ [v] } w :=
        fun hm => .inr (.inl ⟨rest, rfl, .inr (by simp only [if_neg hav]; exact hm)⟩)
      rcases hmem with hmem | hmem
      · rcases List.mem_cons.mp hmem with rfl | hmem
        · exact hun (List.mem_append_right _ (List.mem_singleton.mpr rfl))
        · exact .inr (.inl ⟨rest, rfl, .inl hmem⟩)
      · exact hun (List.mem_append_left _ hmem)
  · cases hr
  · cases hw

/-- At the end of the first loop, the unavailable values are known. -/
theorem Inv.scanned (h : Inv avail values c) (hpc : c.pc = .scan []) :
    c.Scanning ∧ ∀ v ∈ values, avail v = true ∨ v ∈ c.unavailableValues := by
  have hs := h.scanning (by rw [hpc]; rfl)
  refine ⟨hs, fun v hv => ?_⟩
  have hcall := h.watched v hv
  rw [Call.Watched, hpc, hs.callbacks] at hcall
  rcases hcall with ha | ⟨rest', he, hmem | hmem⟩ | hr | hw
  · exact .inl ha
  · cases he
    cases hmem
  · exact .inr hmem
  · cases hr
  · cases hw

/-- The callee is called directly. -/
theorem Inv.direct (h : Inv avail values c) (hpc : c.pc = .scan [])
    (hlen : c.unavailableValues.length = 0) :
    Inv avail values { c with pc := .inline [], callbacks := [.callee] } := by
  obtain ⟨⟨-, hdata, hcalls, hfrees⟩, hun⟩ := h.scanned hpc
  refine ⟨fun v hv => ?_, nofun, fun _ => ⟨?_, fun hd => absurd hdata hd, fun _ => ?_⟩, h.freed,
    h.misused⟩
  · rcases hun v hv with ha | hm
    · exact .inl ha
    · rw [List.eq_nil_of_length_eq_zero hlen] at hm
      cases hm
  · show c.calls + 1 + 0 = 1
    rw [hcalls]
  · exact ⟨Nat.zero_le 1, hfrees, rfl⟩

/-- The second loop is entered. -/
theorem Inv.enter_register (h : Inv avail values c) (hpc : c.pc = .scan []) {data : Data}
    {counter : Nat}
    (hlen : c.unavailableValues.length ≠ 0)
    (hdata : data = .none ∧ c.unavailableValues.length = 1 ∨
      data = .alive ∧ counter = c.unavailableValues.length) :
    Inv avail values { c with
      pc := .register c.unavailableValues, counter := counter, data := data } := by
  obtain ⟨⟨hcb, -, hcalls, hfrees⟩, hun⟩ := h.scanned hpc
  generalize hc : { c with
    pc := .register c.unavailableValues, counter := counter, data := data } = c'
  have hdue : c'.due = c.unavailableValues.length := by
    rw [← hc, Call.due]
    show List.countP _ c.callbacks + _ = _
    rw [hcb]
    exact Nat.zero_add _
  have hcount : ∀ p, c'.callbacks.countP p = 0 := fun p => by
    rw [← hc]
    show List.countP _ c.callbacks = 0
    rw [hcb]
    rfl
  have hcalls' : c'.calls = 0 := by rw [← hc]; exact hcalls
  have hfrees' : c'.frees = 0 := by rw [← hc]; exact hfrees
  have hdata' : c'.data = data := by rw [← hc]
  have hcounter : c'.counter = counter := by rw [← hc]
  refine ⟨fun v hv => ?_, fun hs => ?_, fun _ => ⟨?_, fun hd => ?_, fun hd => ?_⟩, ?_, ?_⟩
  · rcases hun v hv with ha | hm
    · exact .inl ha
    · refine .inr (.inr (.inl ?_))
      rw [← hc]
      exact hm
  · rw [← hc] at hs
    cases hs
  · rw [hcalls', hcount, hdue, if_neg hlen]
  · rcases hdata with ⟨hno, -⟩ | ⟨-, he⟩
    · exact absurd (hdata'.trans hno) hd
    · rw [hcounter, hfrees', hcount, hdue, if_neg hlen]
      exact ⟨he, rfl⟩
  · rcases hdata with ⟨-, hone⟩ | ⟨he, -⟩
    · exact ⟨by omega, hfrees', hcount _⟩
    · rw [hdata', he] at hd
      cases hd
  · rw [hdata', hfrees']
    rcases hdata with ⟨rfl, -⟩ | ⟨rfl, -⟩
    · exact ⟨nofun, fun hne => absurd rfl hne⟩
    · exact ⟨nofun, fun hne => absurd rfl hne⟩
  · rw [← hc]
    exact h.misused

/-- A step of the second loop: what is registered is still to come. -/
theorem Inv.of_due (h : Inv avail values c) (hs : c.pc.scanning = false) (pc : Pc α)
    (new : List (Callback α)) (hpc : pc.scanning = false)
    (hnew : ∀ x ∈ new, x.pending = true) (hlen : pc.rest.length + new.length = c.pc.rest.length)
    (hwatched : ∀ v ∈ c.pc.rest, avail v = true ∨ v ∈ pc.rest ∨ .waiting v ∈ new) :
    Inv avail values { c with pc := pc, callbacks := c.callbacks ++ new } := by
  have hreg := h.registered hs
  have hcount : ∀ p : Callback α → Bool, (∀ x, x.pending = true → p x = false) →
      (c.callbacks ++ new).countP p = c.callbacks.countP p := by
    intro p hp
    have hzero : new.countP p = 0 := List.countP_eq_zero.mpr fun x hx => by
      rw [hp x (hnew x hx)]
      decide
    rw [List.countP_append, hzero, Nat.add_zero]
  have hdue : Call.due { c with pc := pc, callbacks := c.callbacks ++ new } = c.due := by
    have hall : new.countP Callback.pending = new.length := List.countP_eq_length.mpr hnew
    simp only [Call.due, List.countP_append]
    omega
  have hcallee := hcount Callback.atCallee fun x hx => by cases x <;> first | rfl | cases hx
  have hlast := hcount Callback.last fun x hx => by cases x <;> first | rfl | cases hx
  have hdelete := hcount Callback.atDelete fun x hx => by cases x <;> first | rfl | cases hx
  refine ⟨fun v hv => ?_, fun hsc => ?_, fun _ => ⟨?_, ?_, ?_⟩, h.freed, h.misused⟩
  · rcases h.watched v hv with ha | ⟨rest, he, -⟩ | hr | hw
    · exact .inl ha
    · rw [he] at hs
      cases hs
    · rcases hwatched v hr with ha | hr | hn
      · exact .inl ha
      · exact .inr (.inr (.inl hr))
      · exact .inr (.inr (.inr (List.mem_append_right _ hn)))
    · exact .inr (.inr (.inr (List.mem_append_left _ hw)))
  · rw [show pc.scanning = true from hsc] at hpc
    cases hpc
  · rw [hdue]
    show c.calls + (c.callbacks ++ new).countP _ + _ = 1
    rw [hcallee]
    exact hreg.once
  · rw [hdue]
    show _ → _ ∧ c.frees + (c.callbacks ++ new).countP _ + _ = 1
    rw [hlast]
    exact hreg.shared
  · rw [hdue]
    show _ → _ ∧ _ ∧ (c.callbacks ++ new).countP _ = 0
    rw [hdelete]
    exact hreg.alone

/-- A step of the caller keeps the invariant. -/
theorem Inv.advance (h : Inv avail values c) (hf : c.advance avail = some c') :
    Inv avail values c' := by
  unfold Call.advance at hf
  split at hf
  · rename_i v rest hpc
    cases hf
    exact h.scan_cons hpc
  · rename_i hpc
    obtain ⟨⟨-, hdata, -, -⟩, -⟩ := h.scanned hpc
    split at hf
    · rename_i hlen
      cases hf
      exact h.direct hpc hlen
    · rename_i hlen
      split at hf
      · rename_i hone
        cases hf
        exact h.enter_register hpc hlen (.inl ⟨hdata, hone⟩)
      · cases hf
        exact h.enter_register hpc hlen (.inr ⟨rfl, rfl⟩)
  · rename_i v rest hpc
    split at hf
    · rename_i hav
      cases hf
      refine h.of_due (by rw [hpc]; rfl) _ _ rfl (by simp [Callback.pending])
        (by rw [hpc]; rfl) fun w hw => ?_
      rw [hpc] at hw
      rcases List.mem_cons.mp hw with rfl | hw
      · exact .inl hav
      · exact .inr (.inl hw)
    · cases hf
      refine h.of_due (by rw [hpc]; rfl) _ _ rfl (by simp [Callback.pending])
        (by rw [hpc]; rfl) fun w hw => ?_
      rw [hpc] at hw
      rcases List.mem_cons.mp hw with rfl | hw
      · exact .inr (.inr (List.mem_singleton.mpr rfl))
      · exact .inr (.inl hw)
  · rename_i hpc
    cases hf
    have := h.of_due (by rw [hpc]; rfl) .returned [] rfl nofun (by rw [hpc]; rfl)
      fun w hw => by rw [hpc] at hw; cases hw
    simpa using this
  · rename_i rest hpc
    split at hf
    · cases hf
      have := h.of_due (by rw [hpc]; rfl) (.register rest) [] rfl nofun
        (by rw [hpc]; rfl) fun w hw => by rw [hpc] at hw; exact .inr (.inl hw)
      simpa using this
    · cases hf
  · cases hf

end Moves

/-! ## The end of a call -/

/-- The steps that a callback has still to take, at most. -/
def Callback.todo : Callback α → Nat
  | .waiting _ => 5
  | .enter => 4
  | .callee => 3
  | .running => 2
  | .delete => 1
  | .done => 0

/-- The steps that the call has still to take, at most. -/
def Call.todo (c : Call α) : Nat :=
  (match c.pc with
    | .scan rest => 9 * rest.length + 8 * c.unavailableValues.length + 10
    | .register rest => 8 * rest.length + 1
    | .inline rest => 8 * rest.length + 2
    | .returned => 0) + (c.callbacks.map Callback.todo).sum

/-- The caller and all callbacks have returned. -/
def Call.Finished (c : Call α) : Prop := c.pc = .returned ∧ ∀ x ∈ c.callbacks, x = .done

/-- What is looked at or waited for is listed, and a caller that waits for a callback has one. -/
structure Listed (values : List α) (c : Call α) : Prop where
  scan : ∀ rest, c.pc = .scan rest → ∀ v, v ∈ rest ∨ v ∈ c.unavailableValues → v ∈ values
  rest : ∀ v ∈ c.pc.rest, v ∈ values
  waiting : ∀ v, .waiting v ∈ c.callbacks → v ∈ values
  inline : ∀ rest, c.pc = .inline rest → c.callbacks ≠ []

section Progress

variable {c c' : Call α} {j : Nat} {avail : α → Bool} {values : List α}

theorem todo_goto {x y : Callback α} (hj : c.callbacks[j]? = some x) (hlt : y.todo < x.todo)
    (hpc : c'.pc = c.pc) (hun : c'.unavailableValues = c.unavailableValues)
    (hcb : c'.callbacks = c.callbacks.set j y) : c'.todo < c.todo := by
  have hsum := sum_modify (w := Callback.todo) (f := fun _ => y) hj
  rw [modify_eq_set_of hj] at hsum
  simp only [Call.todo, hpc, hun, hcb]
  omega

/-- A step of a callback brings the end nearer. -/
theorem fire_todo (hf : c.fire avail j = some c') : c'.todo < c.todo := by
  unfold Call.fire at hf
  split at hf
  · rename_i v hj
    obtain ⟨-, hc⟩ := Option.ite_none_right_eq_some.mp hf
    cases hc
    exact todo_goto hj (by simp [Callback.todo]) rfl rfl rfl
  · rename_i hj
    split at hf
    · cases hf
      exact todo_goto hj (by simp [Callback.todo]) rfl rfl rfl
    · cases hf
      refine todo_goto hj ?_ rfl rfl rfl
      split <;> simp [Callback.todo]
  · rename_i hj
    cases hf
    exact todo_goto hj (by simp [Callback.todo]) rfl rfl rfl
  · rename_i hj
    cases hf
    refine todo_goto hj ?_ rfl rfl rfl
    split <;> simp [Callback.todo]
  · rename_i hj
    cases hf
    exact todo_goto hj (by simp [Callback.todo]) rfl rfl rfl
  · cases hf

/-- A step of the caller brings the end nearer. -/
theorem advance_todo (hf : c.advance avail = some c') : c'.todo < c.todo := by
  unfold Call.advance at hf
  split at hf
  · rename_i v rest hpc
    cases hf
    simp only [Call.todo, hpc, List.length_cons]
    split
    · omega
    · rw [List.length_append, List.length_singleton]
      omega
  · rename_i hpc
    split at hf
    · cases hf
      simp only [Call.todo, hpc, List.length_nil, List.map_cons, List.map_nil, List.sum_cons,
        List.sum_nil, Callback.todo]
      omega
    · split at hf <;> cases hf <;> simp only [Call.todo, hpc] <;> omega
  · rename_i v rest hpc
    split at hf <;> cases hf <;> simp only [Call.todo, hpc, List.length_cons, List.map_append,
      List.map_cons, List.map_nil, List.sum_append, List.sum_cons, List.sum_nil, Callback.todo] <;>
        omega
  · rename_i hpc
    cases hf
    simp only [Call.todo, hpc]
    omega
  · rename_i rest hpc
    split at hf
    · cases hf
      simp only [Call.todo, hpc]
      omega
    · cases hf
  · cases hf

theorem Listed.start (values : List α) : Listed values (.start values) where
  scan rest he v hv := by
    cases he
    exact hv.resolve_right List.not_mem_nil
  rest := nofun
  waiting := nofun
  inline := nofun

/-- A callback moves to a place where it does not wait. -/
theorem Listed.goto (h : Listed values c) {y : Callback α} (hy : ∀ v, y ≠ .waiting v)
    (hpc : c'.pc = c.pc) (hun : c'.unavailableValues = c.unavailableValues)
    (hcb : c'.callbacks = c.callbacks.set j y) : Listed values c' where
  scan rest he := by
    rw [hun]
    exact h.scan rest (hpc ▸ he)
  rest v hv := h.rest v (hpc ▸ hv)
  waiting v hv := by
    rw [hcb] at hv
    rcases List.mem_or_eq_of_mem_set hv with hm | he
    · exact h.waiting v hm
    · exact absurd he.symm (hy v)
  inline rest he := by
    rw [hcb]
    intro hnil
    have hlen := congrArg List.length hnil
    rw [List.length_set] at hlen
    exact h.inline rest (hpc ▸ he) (List.eq_nil_of_length_eq_zero hlen)

theorem Listed.fire (h : Listed values c) (hf : c.fire avail j = some c') : Listed values c' := by
  unfold Call.fire at hf
  split at hf
  · obtain ⟨-, hc⟩ := Option.ite_none_right_eq_some.mp hf
    cases hc
    exact h.goto (fun v he => by cases he) rfl rfl rfl
  · split at hf
    · cases hf
      exact h.goto (fun v he => by cases he) rfl rfl rfl
    · cases hf
      refine h.goto (fun v => ?_) rfl rfl rfl
      split <;> nofun
  · cases hf
    exact h.goto (fun v he => by cases he) rfl rfl rfl
  · cases hf
    refine h.goto (fun v => ?_) rfl rfl rfl
    split <;> nofun
  · cases hf
    exact h.goto (fun v he => by cases he) rfl rfl rfl
  · cases hf

theorem Listed.advance (h : Listed values c) (hf : c.advance avail = some c') : Listed values c' := by
  unfold Call.advance at hf
  split at hf
  · rename_i v rest hpc
    cases hf
    refine ⟨fun rest' he w hw => ?_, nofun, h.waiting, nofun⟩
    cases he
    rcases hw with hw | hw
    · exact h.scan _ hpc w (.inl (List.mem_cons_of_mem v hw))
    · split at hw
      · exact h.scan _ hpc w (.inr hw)
      · rcases List.mem_append.mp hw with hw | hw
        · exact h.scan _ hpc w (.inr hw)
        · exact h.scan _ hpc w (.inl (List.mem_singleton.mp hw ▸ List.mem_cons_self))
  · rename_i hpc
    have hun : ∀ v ∈ c.unavailableValues, v ∈ values := fun v hv => h.scan _ hpc v (.inr hv)
    split at hf
    · cases hf
      exact ⟨nofun, nofun, by simp, by simp⟩
    · split at hf <;> cases hf <;> exact ⟨nofun, hun, h.waiting, nofun⟩
  · rename_i v rest hpc
    have hrest : ∀ w ∈ v :: rest, w ∈ values := fun w hw => h.rest w (by rw [hpc]; exact hw)
    split at hf
    · cases hf
      refine ⟨nofun, fun w hw => hrest w (List.mem_cons_of_mem v hw), fun w hw => ?_, by simp⟩
      exact h.waiting w (by simpa using hw)
    · cases hf
      refine ⟨nofun, fun w hw => hrest w (List.mem_cons_of_mem v hw), fun w hw => ?_, nofun⟩
      rcases List.mem_append.mp hw with hw | hw
      · exact h.waiting w hw
      · cases List.mem_singleton.mp hw
        exact hrest v List.mem_cons_self
  · cases hf
    exact ⟨nofun, nofun, h.waiting, nofun⟩
  · rename_i rest hpc
    split at hf
    · cases hf
      exact ⟨nofun, fun v hv => h.rest v (by rw [hpc]; exact hv), h.waiting, nofun⟩
    · cases hf
  · cases hf

/-- A callback that has not returned can go on, once its value is available. -/
theorem exists_fire (h : Listed values c) (hav : ∀ v ∈ values, avail v = true) {x : Callback α}
    (hj : c.callbacks[j]? = some x) (hx : x ≠ .done) : (c.fire avail j).isSome = true := by
  unfold Call.fire
  rw [hj]
  cases x with
  | waiting v =>
    have := hav v (h.waiting v (List.mem_of_getElem? hj))
    simp [this]
  | enter =>
    simp only
    split <;> rfl
  | done => exact absurd rfl hx
  | callee | running | delete => rfl

/-- The caller can go on once all callbacks have returned. -/
theorem exists_advance (h : Listed values c) (hall : ∀ x ∈ c.callbacks, x = .done)
    (hpc : c.pc ≠ .returned) : (c.advance avail).isSome = true := by
  unfold Call.advance
  split
  · rfl
  · split
    · rfl
    · split <;> rfl
  · split <;> rfl
  · rfl
  · rename_i rest he
    have hne := h.inline rest he
    rw [List.getLast?_eq_getLast_of_ne_nil hne, hall _ (List.getLast_mem hne)]
    rfl
  · rename_i he
    exact absurd he hpc

/-- A call whose values are all available ends. -/
theorem progress (h : Listed values c) (hav : ∀ v ∈ values, avail v = true) :
    c.Finished ∨ (c.advance avail).isSome = true ∨ ∃ j, (c.fire avail j).isSome = true := by
  by_cases hall : ∀ x ∈ c.callbacks, x = .done
  · by_cases hpc : c.pc = .returned
    · exact .inl ⟨hpc, hall⟩
    · exact .inr (.inl (exists_advance h hall hpc))
  · obtain ⟨x, hx⟩ := not_forall.mp hall
    obtain ⟨hmem, hne⟩ := Classical.not_imp.mp hx
    obtain ⟨j, hj⟩ := List.mem_iff_getElem?.mp hmem
    exact .inr (.inr ⟨j, exists_fire h hav hj hne⟩)

end Progress

/-! ## The callee and the data -/

/-- What a call does: the callee is called once, when all values are available, and the data is
deleted once, by the last callback. A call whose values are all available comes to its end. -/
structure Correct (values : List α) (s : St α) : Prop where
  once : s.call.calls ≤ 1
  ready : s.call.calls ≠ 0 → ∀ v ∈ values, s.avail v = true
  freed : s.call.frees ≤ 1
  untouched : s.call.misused = false
  finished : s.call.Finished →
    s.call.calls = 1 ∧ s.call.frees = if s.call.data = .none then 0 else 1
  ends : (∀ v ∈ values, s.avail v = true) → s.call.Finished ∨
    (s.call.advance s.avail).isSome = true ∨ ∃ j, (s.call.fire s.avail j).isSome = true
  advance : ∀ c, s.call.advance s.avail = some c → c.todo < s.call.todo
  fire : ∀ j c, s.call.fire s.avail j = some c → c.todo < s.call.todo

section Correct

variable {avail : α → Bool} {values : List α} {c : Call α}

/-- The callee is called once, and then every value is available. -/
theorem Inv.calls (h : Inv avail values c) :
    c.calls ≤ 1 ∧ (c.calls ≠ 0 → ∀ v ∈ values, avail v = true) := by
  cases hs : c.pc.scanning with
  | true =>
    have := (h.scanning hs).calls
    exact ⟨by omega, fun hne => absurd this hne⟩
  | false =>
    have honce := (h.registered hs).once
    refine ⟨by omega, fun hne => h.ready hs ?_⟩
    by_contra hd
    rw [if_neg hd] at honce
    omega

/-- The data is deleted once. -/
theorem Inv.frees_le (h : Inv avail values c) : c.frees ≤ 1 := by
  cases hs : c.pc.scanning with
  | true => exact (h.scanning hs).frees.trans_le (Nat.zero_le 1)
  | false =>
    by_cases hd : c.data = .none
    · exact ((h.registered hs).alone hd).2.1.trans_le (Nat.zero_le 1)
    · have := ((h.registered hs).shared hd).2
      omega

theorem Inv.finished (h : Inv avail values c) (hf : c.Finished) :
    c.calls = 1 ∧ c.frees = if c.data = .none then 0 else 1 := by
  obtain ⟨hpc, hall⟩ := hf
  have hs : c.pc.scanning = false := by rw [hpc]; rfl
  have hcount : ∀ p : Callback α → Bool, p .done = false → c.callbacks.countP p = 0 := by
    intro p hp
    refine List.countP_eq_zero.mpr fun x hx => ?_
    rw [hall x hx, hp]
    decide
  have hdue : c.due = 0 := by
    rw [Call.due, hcount _ rfl, hpc]
    rfl
  have hreg := h.registered hs
  have honce := hreg.once
  rw [hcount _ rfl, if_pos hdue] at honce
  refine ⟨honce, ?_⟩
  by_cases hd : c.data = .none
  · rw [if_pos hd]
    exact (hreg.alone hd).2.1
  · have := (hreg.shared hd).2
    rw [hcount _ rfl, if_pos hdue] at this
    rw [if_neg hd]
    exact this

theorem Inv.correct {s : St α} (h : Inv s.avail values s.call) (hl : Listed values s.call) :
    Correct values s :=
  ⟨h.calls.1, h.calls.2, h.frees_le, h.misused, h.finished, progress hl, fun _ => advance_todo,
    fun _ _ => fire_todo⟩

end Correct

variable [DecidableEq α] {avail : α → Bool} {values : List α} {s : St α}

/-- The invariant holds in every run. -/
theorem inv_reach (hs : (sys avail values).Reach Any s) :
    Inv s.avail values s.call ∧ Listed values s.call := by
  refine hs.invariant (I := fun s => Inv s.avail values s.call ∧ Listed values s.call) ?_ ?_
  · rintro s rfl
    exact ⟨.start avail values, .start values⟩
  · rintro s l s' ⟨h, hl⟩ - hstep
    change step s l = some s' at hstep
    cases l with
    | resolve v =>
      obtain ⟨hno, hs'⟩ := Option.ite_none_left_eq_some.mp hstep
      cases hs'
      refine ⟨h.mono fun w _ hw => ?_, hl⟩
      show Function.update s.avail v true w = true
      by_cases he : w = v
      · rw [he, Function.update_self]
      · rw [Function.update_of_ne he]
        exact hw
    | advance =>
      obtain ⟨c, hc, rfl⟩ := Option.map_eq_some_iff.mp hstep
      exact ⟨h.advance hc, hl.advance hc⟩
    | fire j =>
      obtain ⟨c, hc, rfl⟩ := Option.map_eq_some_iff.mp hstep
      exact ⟨h.fire hc, hl.fire hc⟩

/-- **In every run of `RunWhenReady` the callee is called once, when every listed value is
available, and the shared counter is deleted once and not used afterwards.** -/
theorem runWhenReady_correct (hs : (sys avail values).Reach Any s) : Correct values s :=
  (inv_reach hs).1.correct (inv_reach hs).2

/-- Two values, one of them listed twice: the first becomes available before it is registered, and
the other two callbacks run when the caller has returned. -/
def late : List (Label Nat) :=
  [.advance, .advance, .advance, .advance, .resolve 0, .advance, .fire 0, .advance, .advance,
    .advance,
    .advance, .resolve 1, .fire 2, .fire 1, .fire 2, .fire 1, .fire 1, .fire 1, .fire 1]

/-- The callee has run at the end of `late`. -/
theorem runWhenReady_correct_late : ∃ s : St Nat, s.call.calls = 1 ∧ s.call.frees = 1 ∧
    Correct [0, 1, 1] s := by
  have hr : ∀ s, runLabels step ⟨fun _ => false, .start [0, 1, 1]⟩ late = some s →
      Correct [0, 1, 1] s := fun s h =>
    runWhenReady_correct (reach_runLabels (fun _ => True) (.init rfl) late (fun _ _ => trivial) h)
  exact ⟨_, rfl, rfl, hr _ rfl⟩

end RunWhenReady

end AsyncLib
