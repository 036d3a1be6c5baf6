import AsyncLib.Lib.Modify
import AsyncLib.Support.Latch

/-!
# `MultiThreadedWorkQueue::Await`

`async/context/multi_threaded_work_queue.cpp`: the caller counts the values with a `latch` on its stack.
It registers a callback with each of them, which counts down, and waits.

As in `Context/RunWhenReady`, `AndThen` is one step: the callback waits for its value, or the caller runs
it before it goes on. A callback whose value has become available starts some time later, on any thread.
The steps of `count_down` and `wait` are those of `Support/Latch`.

* `St`, `step`: the caller, the callbacks and the latch. `failed` records a failed assertion, and `misused`
  an access to the latch after `Await` returned.
* `Inv`: the latch counts the callbacks to come; a caller that is blocked has its wake-up before it.
* `work`: what is left to do; each step of the caller or a callback lowers it.
* `await_correct`: all runs.
-/

namespace AsyncLib

namespace MultiThreadedAwait

open Sys

/-! ## The code -/

/-- Where a callback is. -/
inductive Phase where
  /-- In the waiter list of its value. -/
  | waiting
  /-- At the subtraction of `count_down`. -/
  | countDown
  /-- Before the lock section of `count_down`. -/
  | notify
  | done
  deriving DecidableEq, Repr

/-- A callback of `Await`: the value that it is registered with, and how far it is. -/
structure Callback (α : Type) where
  value : α
  phase : Phase
  deriving DecidableEq, Repr

/-- Where the caller is. -/
inductive Pc (α : Type) where
  /-- In the loop, with the values still to be waited for. -/
  | register (rest : List α)
  /-- In the callback that it runs itself. -/
  | inline (rest : List α)
  /-- At the first step of `wait`. -/
  | wait
  /-- In `wait`, before a lock section that looks at `notified_`. -/
  | locking
  /-- Blocked in `cv_.wait`. -/
  | blocked
  | returned
  deriving DecidableEq, Repr

/-- `cv_.notify_all`. -/
def Pc.wake {α : Type} : Pc α → Pc α
  | .blocked => .locking
  | pc => pc

/-- The values, the latch, the caller and the callbacks. -/
structure St (α : Type) where
  avail : α → Bool
  /-- `state_` and `notified_` of `valuesRemaining`. -/
  state : Nat
  notified : Bool
  pc : Pc α
  callbacks : List (Callback α)
  failed : Bool
  misused : Bool

/-- A value is resolved, or the caller or a callback makes a step. -/
inductive Label (α : Type) where
  /-- The value becomes available. -/
  | resolve (v : α)
  /-- The caller moves. -/
  | advance
  /-- Callback `j` moves. -/
  | fire (j : Nat)
  | spurious
  deriving DecidableEq, Repr

section Code

variable {α : Type}

/-- An access to the latch. -/
def St.touch (s : St α) : St α :=
  { s with misused := s.misused || match s.pc with | .returned => true | _ => false }

/-- Callback `j` becomes `c`. -/
def St.goto (s : St α) (j : Nat) (c : Callback α) : St α := { s with callbacks := s.callbacks.set j c }

/-- `wait` returns, and the destructor of the latch looks at the counter. -/
def St.leave (s : St α) : St α :=
  { s with pc := .returned, failed := s.failed || decide (s.state / 2 ≠ 0) }

/-- A step of the caller of `Await`. -/
def St.advance (s : St α) : Option (St α) :=
  match s.pc with
  | .register (v :: rest) =>
    some (if s.avail v then
      { s with pc := .inline rest, callbacks := s.callbacks ++ [⟨v, .countDown⟩] }
    else { s with pc := .register rest, callbacks := s.callbacks ++ [⟨v, .waiting⟩] })
  | .register [] => some { s with pc := .wait }
  | .inline rest =>
    match s.callbacks.getLast? with
    | some ⟨_, .done⟩ => some { s with pc := .register rest }
    | _ => none
  | .wait =>
    some (if s.state / 2 = 0 then { s with state := Latch.fetchOr s.state 1 }.leave
      else { s with state := Latch.fetchOr s.state 1, pc := .locking })
  | .locking => some (if s.notified then s.leave else { s with pc := .blocked })
  | .blocked | .returned => none

/-- A step of the callback `j`. -/
def St.fire (s : St α) (j : Nat) : Option (St α) :=
  match s.callbacks[j]? with
  | some ⟨v, .waiting⟩ => if s.avail v then some (s.goto j ⟨v, .countDown⟩) else none
  | some ⟨v, .countDown⟩ =>
    some ({ s.touch with
      state := Latch.fetchSub s.state (1 * 2)
      failed := s.failed || decide (s.state / 2 < 1) }.goto j
        ⟨v, if s.state / 2 = 1 ∧ s.state % 2 = 1 then .notify else .done⟩)
  | some ⟨v, .notify⟩ =>
    some ({ s.touch with
      failed := s.failed || s.notified
      notified := true
      pc := s.pc.wake }.goto j ⟨v, .done⟩)
  | some ⟨_, .done⟩ | none => none

/-- One step; `none` if it is not enabled. -/
def step [DecidableEq α] (s : St α) : Label α → Option (St α)
  | .resolve v => if s.avail v then none else some { s with avail := Function.update s.avail v true }
  | .advance => s.advance
  | .fire j => s.fire j
  | .spurious =>
    match s.pc with
    | .blocked => some { s with pc := .locking }
    | _ => none

/-- `latch valuesRemaining(values.size())`. -/
def init (avail : α → Bool) (values : List α) : St α where
  avail := avail
  state := values.length * 2 % 2 ^ 64
  notified := false
  pc := .register values
  callbacks := []
  failed := decide (2 ^ 63 ≤ values.length)
  misused := false

/-- The runs of a call, from any pattern of available values. -/
def sys [DecidableEq α] (avail : α → Bool) (values : List α) : Sys (St α) (Label α) :=
  ofFun (init avail values) step

end Code

/-! ## The invariant -/

section Invariant

variable {α : Type}

/-- The callback has not counted down yet. -/
def Callback.pending (c : Callback α) : Bool :=
  match c.phase with
  | .waiting | .countDown => true
  | _ => false

/-- The callback is about to notify the latch. -/
def Callback.notifies (c : Callback α) : Bool :=
  match c.phase with
  | .notify => true
  | _ => false

/-- The values that have no callback yet. -/
def Pc.rest : Pc α → List α
  | .register rest | .inline rest => rest
  | _ => []

/-- The bit of the latch: `wait` has begun. -/
def Pc.bit : Pc α → Nat
  | .locking | .blocked | .returned => 1
  | _ => 0

/-- The callbacks that are to count down. -/
def St.due (s : St α) : Nat := s.callbacks.countP Callback.pending + s.pc.rest.length

/-- The number of callbacks that are about to notify the latch. -/
def St.notifiers (s : St α) : Nat := s.callbacks.countP Callback.notifies

/-- The wake-up of the caller, by its place, for the number of callbacks to come, of notifications on
their way, and whether there was one. -/
def WakeOk (due notifiers : Nat) (notified : Bool) : Pc α → Prop
  | .register _ | .inline _ | .wait => notifiers = 0 ∧ notified = false
  | .locking => notifiers + notified.toNat = if due = 0 then 1 else 0
  | .blocked => notified = false ∧ notifiers = if due = 0 then 1 else 0
  | .returned => due = 0 ∧ notifiers = 0

/-- The invariant (module doc). -/
structure Inv (values : List α) (s : St α) : Prop where
  small : values.length < 2 ^ 63
  values : s.callbacks.map Callback.value ++ s.pc.rest = values
  ready : ∀ c ∈ s.callbacks, c.phase ≠ .waiting → s.avail c.value = true
  inline : ∀ rest, s.pc = .inline rest → ∃ c, s.callbacks.getLast? = some c ∧ c.phase ≠ .waiting
  state : s.state = 2 * s.due + s.pc.bit
  wake : WakeOk s.due s.notifiers s.notified s.pc
  failed : s.failed = false
  misused : s.misused = false

variable {values : List α} {s s' : St α} {j : Nat}

theorem Inv.due_lt (h : Inv values s) : s.due < 2 ^ 63 := by
  have hlen := congrArg List.length h.values
  rw [List.length_append, List.length_map] at hlen
  have hle : s.callbacks.countP Callback.pending ≤ s.callbacks.length := List.countP_le_length
  have hsmall := h.small
  unfold St.due
  omega

/-- A caller that is past its loop has no values left. -/
theorem due_eq (hrest : s.pc.rest = []) : s.due = s.callbacks.countP Callback.pending := by
  rw [St.due, hrest]
  rfl

theorem inv_init (avail : α → Bool) (hlen : values.length < 2 ^ 63) : Inv values (init avail values) where
  small := hlen
  values := rfl
  ready c hc := by cases hc
  inline rest h := by cases h
  state := by
    show values.length * 2 % 2 ^ 64 = 2 * (0 + values.length) + 0
    omega
  wake := ⟨rfl, rfl⟩
  failed := by simpa [init] using hlen
  misused := rfl

/-! ### The steps of the caller -/

theorem map_value_set {l : List (Callback α)} {c c' : Callback α} (hj : l[j]? = some c)
    (hv : c'.value = c.value) : (l.set j c').map Callback.value = l.map Callback.value := by
  obtain ⟨hlt, rfl⟩ := List.getElem?_eq_some_iff.mp hj
  have hself := List.set_getElem_self (show j < (l.map Callback.value).length by simpa using hlt)
  rw [List.getElem_map] at hself
  rw [List.map_set, hv, hself]

theorem getLast?_set {l : List (Callback α)} {c' x : Callback α} (hx : l.getLast? = some x) :
    (l.set j c').getLast? = some c' ∨ (l.set j c').getLast? = some x := by
  rw [List.getLast?_eq_getElem?] at hx ⊢
  rw [List.length_set, List.getElem?_set]
  split
  · rename_i hj
    split
    · exact .inl rfl
    · rename_i hlt
      exact absurd (hj ▸ (List.getElem?_eq_some_iff.mp hx).1) hlt
  · exact .inr hx

/-- The word after the first step of `wait`. -/
theorem fetchOr_state {x due bit : Nat} (h : x = 2 * due + bit) (hbit : bit = 0) :
    Latch.fetchOr x 1 = 2 * due + 1 := by
  have h1 := Latch.fetchOr_div x
  have h2 := Latch.fetchOr_mod x
  omega

theorem Inv.leave (h : Inv values s) (hrest : s.pc.rest = []) (hbit : s.pc.bit = 1) (hdue : s.due = 0)
    (hn : s.notifiers = 0) : Inv values s.leave := by
  have hcount : s.callbacks.countP Callback.pending = 0 := (Nat.add_eq_zero_iff.mp hdue).1
  refine ⟨h.small, ?_, h.ready, fun rest hc => (by cases hc), ?_, ⟨hcount, hn⟩, ?_, h.misused⟩
  · have hv := h.values
    rw [hrest] at hv
    exact hv
  · show s.state = 2 * (s.callbacks.countP Callback.pending + 0) + 1
    rw [h.state, hbit, hdue, hcount]
  · show (s.failed || decide (s.state / 2 ≠ 0)) = false
    have hzero : s.state / 2 = 0 := by
      rw [h.state, hbit, hdue]
    simp [h.failed, hzero]

/-- The caller registers a callback with the next value, or begins to run it. -/
theorem Inv.push (h : Inv values s) {v : α} {rest : List α} {p : Phase} {pc : Pc α}
    (hpc : s.pc = .register (v :: rest)) (hp : Callback.pending ⟨v, p⟩ = true)
    (hv : p ≠ .waiting → s.avail v = true) (hk : pc = .register rest ∨ pc = .inline rest ∧ p ≠ .waiting) :
    Inv values { s with pc := pc, callbacks := s.callbacks ++ [⟨v, p⟩] } := by
  have hstate := h.state
  have hwake := h.wake
  have hvalues := h.values
  rw [hpc] at hstate hwake hvalues
  have hdue : s.due = s.callbacks.countP Callback.pending + (rest.length + 1) := by
    rw [St.due, hpc]
    rfl
  have hrest : pc.rest = rest := by
    rcases hk with rfl | ⟨rfl, -⟩ <;> rfl
  have hbit : pc.bit = 0 := by
    rcases hk with rfl | ⟨rfl, -⟩ <;> rfl
  have hnone : Callback.notifies ⟨v, p⟩ = false := by
    cases p with
    | waiting | countDown => rfl
    | notify | done => cases hp
  have hnotifiers : List.countP Callback.notifies (s.callbacks ++ [⟨v, p⟩]) = 0 := by
    simpa [List.countP_append, hnone, St.notifiers] using hwake.1
  refine ⟨h.small, ?_, fun c hc hw => ?_, fun rest' hr => ?_, ?_, ?_, h.failed, h.misused⟩
  · show List.map Callback.value (s.callbacks ++ [⟨v, p⟩]) ++ pc.rest = values
    rw [hrest, ← hvalues, List.map_append, List.append_assoc]
    rfl
  · rcases List.mem_append.mp hc with hc | hc
    · exact h.ready c hc hw
    · rw [List.mem_singleton.mp hc] at hw ⊢
      exact hv hw
  · refine ⟨⟨v, p⟩, List.getLast?_concat .., ?_⟩
    rcases hk with rfl | ⟨-, hw⟩
    · cases hr
    · exact hw
  · rw [hstate, hdue]
    show 2 * (s.callbacks.countP Callback.pending + (rest.length + 1)) + 0 =
      2 * (List.countP Callback.pending (s.callbacks ++ [⟨v, p⟩]) + pc.rest.length) + pc.bit
    rw [hrest, hbit, List.countP_append, List.countP_singleton, if_pos hp]
    omega
  · rcases hk with rfl | ⟨rfl, -⟩ <;> exact ⟨hnotifiers, hwake.2⟩

theorem Inv.advance (h : Inv values s) (hs : s.advance = some s') : Inv values s' := by
  have hstate := h.state
  have hwake := h.wake
  have hvalues := h.values
  cases hpc : s.pc with
  | register rest =>
    rw [hpc] at hstate hwake hvalues
    cases rest with
    | nil =>
      simp only [St.advance, hpc, Option.some.injEq] at hs
      subst hs
      refine ⟨h.small, hvalues, h.ready, fun rest hc => (by cases hc), ?_, hwake, h.failed, h.misused⟩
      simpa [St.due, hpc, Pc.rest, Pc.bit] using hstate
    | cons v rest =>
      simp only [St.advance, hpc, Option.some.injEq] at hs
      split at hs
      · rename_i hv
        subst hs
        exact h.push hpc rfl (fun _ => hv) (.inr ⟨rfl, by simp⟩)
      · subst hs
        exact h.push hpc rfl (fun hp => absurd rfl hp) (.inl rfl)
  | inline rest =>
    rw [hpc] at hstate hwake hvalues
    simp only [St.advance, hpc] at hs
    split at hs
    · cases hs
      refine ⟨h.small, hvalues, h.ready, fun rest hc => (by cases hc), ?_, hwake, h.failed, h.misused⟩
      simpa [St.due, hpc, Pc.rest, Pc.bit] using hstate
    · cases hs
  | wait =>
    rw [hpc] at hwake hvalues
    have hor := fetchOr_state hstate (by rw [hpc]; rfl)
    have hdiv : s.state / 2 = s.due := by
      rw [hstate, hpc]
      show (2 * s.due + 0) / 2 = s.due
      omega
    have hcount : s.due = s.callbacks.countP Callback.pending := due_eq (by rw [hpc]; rfl)
    simp only [St.advance, hpc, Option.some.injEq, hdiv] at hs
    split at hs
    · rename_i hdue
      subst hs
      have hzero : Latch.fetchOr s.state 1 / 2 = 0 := by
        rw [Latch.fetchOr_div, hdiv, hdue]
      refine ⟨h.small, hvalues, h.ready, fun rest hc => (by cases hc), ?_, ⟨?_, hwake.1⟩, ?_, h.misused⟩
      · exact hor.trans (by rw [hcount]; rfl)
      · exact hcount.symm.trans hdue
      · show (s.failed || decide (Latch.fetchOr s.state 1 / 2 ≠ 0)) = false
        simp [h.failed, hzero]
    · rename_i hdue
      subst hs
      refine ⟨h.small, hvalues, h.ready, fun rest hc => (by cases hc), ?_, ?_, h.failed, h.misused⟩
      · exact hor.trans (by rw [hcount]; rfl)
      · show s.notifiers + s.notified.toNat = if s.callbacks.countP Callback.pending + 0 = 0 then 1 else 0
        rw [hwake.1, hwake.2, if_neg (by omega)]
        rfl
  | locking =>
    rw [hpc] at hwake hvalues
    have hcount : s.due = s.callbacks.countP Callback.pending := due_eq (by rw [hpc]; rfl)
    have hw : s.notifiers + s.notified.toNat = if s.due = 0 then 1 else 0 := hwake
    simp only [St.advance, hpc, Option.some.injEq] at hs
    split at hs
    · rename_i hn
      subst hs
      rw [hn, Bool.toNat_true] at hw
      split at hw
      · rename_i hdue
        exact h.leave (by rw [hpc]; rfl) (by rw [hpc]; rfl) hdue (by omega)
      · omega
    · rename_i hn
      subst hs
      have hn : s.notified = false := by simpa using hn
      rw [hn, Bool.toNat_false, Nat.add_zero] at hw
      refine ⟨h.small, hvalues, h.ready, fun rest hc => (by cases hc), ?_, ⟨hn, ?_⟩, h.failed, h.misused⟩
      · exact hstate.trans (by rw [hcount, hpc]; rfl)
      · exact hw.trans (by rw [hcount]; rfl)
  | blocked | returned =>
    simp only [St.advance, hpc] at hs
    cases hs

/-! ### The steps of the callbacks -/

/-- Callback `j` moves from `c` to `c'`, whose value is available. -/
structure Moved (s t : St α) (j : Nat) (c c' : Callback α) : Prop where
  entry : s.callbacks[j]? = some c
  value : c'.value = c.value
  phase : c'.phase ≠ .waiting
  ready : s.avail c.value = true
  callbacks : t.callbacks = s.callbacks.set j c'
  avail : t.avail = s.avail
  rest : t.pc.rest = s.pc.rest
  bit : t.pc.bit = s.pc.bit
  inline : ∀ rest, t.pc = .inline rest → s.pc = .inline rest

section Moves

variable {t : St α} {c c' : Callback α}

theorem Moved.due (m : Moved s t j c c') : t.due + c.pending.toNat = s.due + c'.pending.toNat := by
  have hcount := countP_set_add (p := Callback.pending) (y := c') m.entry
  rw [St.due, St.due, m.callbacks, m.rest]
  omega

theorem Moved.notifiers (m : Moved s t j c c') :
    t.notifiers + c.notifies.toNat = s.notifiers + c'.notifies.toNat := by
  rw [St.notifiers, St.notifiers, m.callbacks]
  exact countP_set_add m.entry

theorem Moved.inv (m : Moved s t j c c') (h : Inv values s) (hstate : t.state = 2 * t.due + t.pc.bit)
    (hwake : WakeOk t.due t.notifiers t.notified t.pc) (hfailed : t.failed = false)
    (hmisused : t.misused = false) : Inv values t where
  small := h.small
  values := by
    rw [m.callbacks, map_value_set m.entry m.value, m.rest]
    exact h.values
  ready x hx hp := by
    rw [m.callbacks] at hx
    rw [m.avail]
    rcases List.mem_or_eq_of_mem_set hx with hx | rfl
    · exact h.ready x hx hp
    · exact m.value ▸ m.ready
  inline rest hr := by
    obtain ⟨x, hx, hp⟩ := h.inline rest (m.inline rest hr)
    rw [m.callbacks]
    rcases getLast?_set hx with hl | hl
    · exact ⟨_, hl, m.phase⟩
    · exact ⟨_, hl, hp⟩
  state := hstate
  wake := hwake
  failed := hfailed
  misused := hmisused

end Moves

/-- An access to the latch before `Await` returns. -/
theorem Inv.touch (h : Inv values s) (hr : s.pc ≠ .returned) : s.touch.misused = false := by
  unfold St.touch
  simp only [h.misused, Bool.false_or]

/-- The subtraction of `count_down`, which leaves the word `x`. -/
theorem Inv.countDown (h : Inv values s) {v : α} {x : Nat} {p : Phase}
    (hj : s.callbacks[j]? = some ⟨v, .countDown⟩) (hx : x = s.state - 2)
    (hp : p = if s.state / 2 = 1 ∧ s.state % 2 = 1 then .notify else .done) :
    Inv values ({ s.touch with
      state := x
      failed := s.failed || decide (s.state / 2 < 1) }.goto j ⟨v, p⟩) := by
  generalize ht : St.goto _ j _ = t
  have hv := h.ready _ (List.mem_of_getElem? hj) (by simp)
  have hphase : p ≠ .waiting := by
    rw [hp]
    split <;> simp
  have hpc : t.pc = s.pc := by rw [← ht]; rfl
  have m : Moved s t j ⟨v, .countDown⟩ ⟨v, p⟩ :=
    ⟨hj, rfl, hphase, hv, by rw [← ht]; rfl, by rw [← ht]; rfl, by rw [hpc], by rw [hpc], fun _ => hpc ▸ id⟩
  have hpend : Callback.pending ⟨v, p⟩ = false := by
    rw [hp]
    split <;> rfl
  have hdue := m.due
  rw [hpend, show Callback.pending ⟨v, .countDown⟩ = true from rfl, Bool.toNat_true, Bool.toNat_false,
    Nat.add_zero] at hdue
  have hbit : s.pc.bit ≤ 1 := by cases s.pc <;> simp [Pc.bit]
  have hstate := h.state
  have hlt := h.due_lt
  have hnot : t.notifiers = s.notifiers + (Callback.notifies ⟨v, p⟩).toNat := by
    simpa [Callback.notifies] using m.notifiers
  have hword : t.state = s.state - 2 := by
    rw [← ht, ← hx]
    rfl
  refine m.inv h ?_ ?_ ?_ ?_
  · rw [hword, hpc]
    omega
  · -- the last callback notifies if the caller has begun to wait
    have hwake := h.wake
    have hnotified : t.notified = s.notified := by rw [← ht]; rfl
    have hnotifies : Callback.notifies ⟨v, p⟩ = decide (s.due = 1 ∧ s.pc.bit = 1) := by
      have hdiv : s.state / 2 = s.due := by omega
      have hmod : s.state % 2 = s.pc.bit := by omega
      rw [hp, hdiv, hmod]
      split <;> simp_all [Callback.notifies]
    rw [hnotifies] at hnot
    rw [hpc, hnotified]
    cases hpc : s.pc with
    | register rest | inline rest | wait =>
      rw [hpc] at hwake hnot
      exact ⟨by simpa [Pc.bit, hwake.1] using hnot, hwake.2⟩
    | locking =>
      rw [hpc] at hwake hnot
      have hw : s.notifiers + s.notified.toNat = if s.due = 0 then 1 else 0 := hwake
      show t.notifiers + s.notified.toNat = if t.due = 0 then 1 else 0
      rw [if_neg (by omega)] at hw
      by_cases h1 : t.due = 0
      · rw [decide_eq_true ⟨by omega, rfl⟩, Bool.toNat_true] at hnot
        rw [if_pos h1]
        omega
      · rw [decide_eq_false fun hc => h1 (by omega), Bool.toNat_false] at hnot
        rw [if_neg h1]
        omega
    | blocked =>
      rw [hpc] at hwake hnot
      have hw : s.notifiers = if s.due = 0 then 1 else 0 := hwake.2
      refine ⟨hwake.1, ?_⟩
      rw [if_neg (by omega)] at hw
      by_cases h1 : t.due = 0
      · rw [decide_eq_true ⟨by omega, rfl⟩, Bool.toNat_true] at hnot
        rw [if_pos h1]
        omega
      · rw [decide_eq_false fun hc => h1 (by omega), Bool.toNat_false] at hnot
        rw [if_neg h1]
        omega
    | returned =>
      rw [hpc] at hwake
      exact absurd hwake.1 (by omega)
  · rw [← ht]
    show (s.failed || decide (s.state / 2 < 1)) = false
    simp [h.failed]
    omega
  · rw [← ht]
    exact h.touch fun hr => by
      have hwake := h.wake
      rw [hr] at hwake
      exact absurd hwake.1 (by omega)

/-- A notification is on its way only to a caller that waits for it. -/
theorem Inv.notifying (h : Inv values s) (hn : 0 < s.notifiers) :
    s.due = 0 ∧ s.notifiers = 1 ∧ s.notified = false ∧ (s.pc = .locking ∨ s.pc = .blocked) := by
  have hwake := h.wake
  cases hpc : s.pc with
  | register rest | inline rest | wait | returned =>
    rw [hpc] at hwake
    obtain ⟨h1, h2⟩ := hwake
    omega
  | locking =>
    rw [hpc] at hwake
    have hw : s.notifiers + s.notified.toNat = if s.due = 0 then 1 else 0 := hwake
    split at hw
    · rename_i hdue
      refine ⟨hdue, by omega, ?_, .inl rfl⟩
      cases hnot : s.notified with
      | false => rfl
      | true =>
        rw [hnot, Bool.toNat_true] at hw
        omega
    · omega
  | blocked =>
    rw [hpc] at hwake
    have hw : s.notifiers = if s.due = 0 then 1 else 0 := hwake.2
    split at hw
    · rename_i hdue
      exact ⟨hdue, hw, hwake.1, .inr rfl⟩
    · omega

/-- The lock section of `count_down`. -/
theorem Inv.notify (h : Inv values s) {v : α} (hj : s.callbacks[j]? = some ⟨v, .notify⟩) :
    Inv values ({ s.touch with
      failed := s.failed || s.notified
      notified := true
      pc := s.pc.wake }.goto j ⟨v, .done⟩) := by
  obtain ⟨hdue, hone, hnot, hpc⟩ := h.notifying
    (List.countP_pos_iff.mpr ⟨_, List.mem_of_getElem? hj, rfl⟩)
  have hv := h.ready _ (List.mem_of_getElem? hj) (by simp)
  have hwake : s.pc.wake = .locking := by
    rcases hpc with hpc | hpc <;> rw [hpc] <;> rfl
  have hrest : s.pc.rest = [] := by
    rcases hpc with hpc | hpc <;> rw [hpc] <;> rfl
  have hbit : s.pc.bit = 1 := by
    rcases hpc with hpc | hpc <;> rw [hpc] <;> rfl
  have hne : s.pc ≠ .returned := by
    rcases hpc with hpc | hpc <;> simp [hpc]
  have hmisused := h.touch hne
  rw [hwake]
  generalize ht : St.goto _ j _ = t
  have htpc : t.pc = .locking := by rw [← ht]; rfl
  have m : Moved s t j ⟨v, .notify⟩ ⟨v, .done⟩ :=
    ⟨hj, rfl, by simp, hv, by rw [← ht]; rfl, by rw [← ht]; rfl, by rw [htpc, hrest]; rfl,
      by rw [htpc, hbit]; rfl, fun rest hr => (by rw [htpc] at hr; cases hr)⟩
  have hdue' : t.due = 0 := by simpa [Callback.pending, hdue] using m.due
  have hnone : t.notifiers = 0 := by simpa [Callback.notifies, hone] using m.notifiers
  refine m.inv h ?_ ?_ ?_ ?_
  · have hstate : t.state = s.state := by rw [← ht]; rfl
    rw [hstate, h.state, hdue, hdue', htpc, hbit]
    rfl
  · have hnotified : t.notified = true := by rw [← ht]; rfl
    rw [htpc, hnotified, hdue', hnone]
    rfl
  · have hfailed : t.failed = (s.failed || s.notified) := by rw [← ht]; rfl
    rw [hfailed, h.failed, hnot]
    rfl
  · rw [← ht]
    exact hmisused

theorem Inv.fire (h : Inv values s) (hs : s.fire j = some s') : Inv values s' := by
  unfold St.fire at hs
  split at hs
  · rename_i v hj
    split at hs
    · rename_i hv
      cases hs
      have m : Moved s (s.goto j ⟨v, .countDown⟩) j ⟨v, .waiting⟩ ⟨v, .countDown⟩ :=
        ⟨hj, rfl, by simp, hv, rfl, rfl, rfl, rfl, fun _ => id⟩
      have hdue : (s.goto j ⟨v, .countDown⟩).due = s.due := Nat.add_right_cancel m.due
      have hnot : (s.goto j ⟨v, .countDown⟩).notifiers = s.notifiers := Nat.add_right_cancel m.notifiers
      refine m.inv h ?_ ?_ h.failed h.misused
      · rw [hdue]
        exact h.state
      · rw [hdue, hnot]
        exact h.wake
    · cases hs
  · rename_i v hj
    cases hs
    have hpos : 0 < s.callbacks.countP Callback.pending :=
      List.countP_pos_iff.mpr ⟨_, List.mem_of_getElem? hj, rfl⟩
    have hdue : 0 < s.due := Nat.lt_of_lt_of_le hpos (Nat.le_add_right _ _)
    have hstate := h.state
    have hlt := h.due_lt
    have hbit : s.pc.bit ≤ 1 := by cases s.pc <;> simp [Pc.bit]
    exact h.countDown hj (Latch.fetchSub_eq (by omega) (by omega)) rfl
  · rename_i v hj
    cases hs
    exact h.notify hj
  · cases hs
  · cases hs

variable [DecidableEq α] {avail : α → Bool} {l : Label α}

theorem Inv.step (h : Inv values s) (hs : step s l = some s') : Inv values s' := by
  cases l with
  | resolve v =>
    simp only [MultiThreadedAwait.step] at hs
    split at hs
    · cases hs
    · cases hs
      refine ⟨h.small, h.values, fun c hc hp => ?_, h.inline, h.state, h.wake, h.failed, h.misused⟩
      show Function.update s.avail v true c.value = true
      by_cases hcv : c.value = v
      · rw [hcv, Function.update_self]
      · rw [Function.update_of_ne hcv]
        exact h.ready c hc hp
  | advance => exact h.advance hs
  | fire j => exact h.fire hs
  | spurious =>
    simp only [MultiThreadedAwait.step] at hs
    split at hs
    · rename_i hpc
      cases hs
      have hwake := h.wake
      have hstate := h.state
      have hvalues := h.values
      rw [hpc] at hwake hvalues
      have hdue : s.due = s.callbacks.countP Callback.pending := due_eq (by rw [hpc]; rfl)
      refine ⟨h.small, hvalues, h.ready, fun rest hc => (by cases hc), ?_, ?_, h.failed, h.misused⟩
      · exact hstate.trans (by rw [hdue, hpc]; rfl)
      · show s.notifiers + s.notified.toNat = if s.callbacks.countP Callback.pending + 0 = 0 then 1 else 0
        rw [hwake.1, Bool.toNat_false, Nat.add_zero, Nat.add_zero, ← hdue]
        exact hwake.2
    · cases hs

theorem inv_reach (hlen : values.length < 2 ^ 63) (hs : (sys avail values).Reach Any s) :
    Inv values s := by
  refine hs.invariant ?_ ?_
  · rintro s rfl
    exact inv_init avail hlen
  · exact fun s l s' h _ hn => h.step hn

end Invariant

/-! ## What is left to do -/

section Work

variable {α : Type}

/-- A bound for the steps of a callback from here on. -/
def Phase.work : Phase → Nat
  | .waiting => 5
  | .countDown => 4
  | .notify => 3
  | .done => 0

/-- A bound for the steps of the caller from here on. -/
def Pc.work : Pc α → Nat
  | .register rest => 7 * rest.length + 4
  | .inline rest => 7 * rest.length + 5
  | .wait => 3
  | .locking => 2
  | .blocked => 1
  | .returned => 0

/-- The steps that are left, at most. -/
def St.work (s : St α) : Nat := s.pc.work + (s.callbacks.map fun c => c.phase.work).sum

/-- The steps of the caller and of the callbacks. -/
def Label.internal : Label α → Bool
  | .advance | .fire _ => true
  | .resolve _ | .spurious => false

/-- The step is a spurious wake-up. -/
def Label.isSpurious : Label α → Bool
  | .spurious => true
  | _ => false

variable {values : List α} {s s' : St α} {j : Nat}

theorem work_advance (hs : s.advance = some s') : s'.work < s.work := by
  unfold St.advance at hs
  split at hs
  · rename_i v rest hpc
    cases hs
    split
    · simp [St.work, hpc, Pc.work, Phase.work]
      omega
    · simp [St.work, hpc, Pc.work, Phase.work]
      omega
  · rename_i hpc
    cases hs
    simp [St.work, hpc, Pc.work]
  · rename_i rest hpc
    split at hs
    · cases hs
      simp [St.work, hpc, Pc.work]
    · cases hs
  · rename_i hpc
    cases hs
    split
    · simp [St.work, St.leave, hpc, Pc.work]
    · simp [St.work, hpc, Pc.work]
  · rename_i hpc
    cases hs
    split
    · simp [St.work, St.leave, hpc, Pc.work]
    · simp [St.work, hpc, Pc.work]
  · cases hs
  · cases hs

/-- A wake-up gives the caller one more step. -/
theorem work_wake (pc : Pc α) : pc.wake.work ≤ pc.work + 1 := by
  cases pc <;> simp [Pc.wake, Pc.work]

theorem work_goto {v : α} {p : Phase} (p' : Phase) (hj : s.callbacks[j]? = some ⟨v, p⟩) :
    (s.goto j ⟨v, p'⟩).work + p.work = s.work + p'.work := by
  have hsum := sum_set (w := fun c : Callback α => c.phase.work) (y := ⟨v, p'⟩) hj
  dsimp only at hsum
  show s.pc.work + ((s.callbacks.set j ⟨v, p'⟩).map fun c => c.phase.work).sum + p.work =
    s.pc.work + (s.callbacks.map fun c => c.phase.work).sum + p'.work
  rw [Nat.add_assoc, hsum, Nat.add_assoc]

/-- A callback that goes on, while the caller gains at most `n` steps. -/
theorem work_goto_lt {t : St α} {v : α} {p p' : Phase} (n : Nat) (hj : s.callbacks[j]? = some ⟨v, p⟩)
    (hc : t.callbacks = s.callbacks) (hpc : t.pc.work ≤ s.pc.work + n) (hp : p'.work + n < p.work) :
    (t.goto j ⟨v, p'⟩).work < s.work := by
  have hgoto := work_goto (s := t) p' (hc ▸ hj)
  have hwork : t.work ≤ s.work + n := by
    unfold St.work
    rw [hc]
    omega
  omega

theorem work_fire (hs : s.fire j = some s') : s'.work < s.work := by
  unfold St.fire at hs
  split at hs
  · rename_i v hj
    split at hs
    · cases hs
      exact work_goto_lt 0 hj rfl (Nat.le_refl _) (by decide)
    · cases hs
  · rename_i v hj
    cases hs
    refine work_goto_lt 0 hj rfl (Nat.le_refl _) ?_
    split <;> decide
  · rename_i v hj
    cases hs
    exact work_goto_lt 1 hj rfl (work_wake s.pc) (by decide)
  · cases hs
  · cases hs

/-- A callback that is not done moves if its value is available. -/
theorem fire_enabled {c : Callback α} (hj : s.callbacks[j]? = some c) (hdone : c.phase ≠ .done)
    (hv : s.avail c.value = true) : ∃ s', s.fire j = some s' := by
  obtain ⟨v, p⟩ := c
  unfold St.fire
  rw [hj]
  cases p with
  | waiting =>
    dsimp only at hv ⊢
    exact ⟨_, if_pos hv⟩
  | countDown | notify => exact ⟨_, rfl⟩
  | done => exact absurd rfl hdone

theorem advance_avail (hs : s.advance = some s') : s'.avail = s.avail := by
  unfold St.advance at hs
  split at hs
  · cases hs
    split <;> rfl
  · cases hs
    rfl
  · split at hs
    · cases hs
      rfl
    · cases hs
  · cases hs
    split <;> rfl
  · cases hs
    split <;> rfl
  · cases hs
  · cases hs

theorem goto_avail (s : St α) (x : Nat) (failed : Bool) (c : Callback α) :
    ({ s.touch with state := x, failed := failed }.goto j c).avail = s.avail := rfl

theorem fire_avail (hs : s.fire j = some s') : s'.avail = s.avail := by
  unfold St.fire at hs
  split at hs
  · split at hs
    · cases hs
      rfl
    · cases hs
  · cases hs
    exact goto_avail s ..
  · cases hs
    rfl
  · cases hs
  · cases hs

variable [DecidableEq α] {avail : α → Bool} {l : Label α}

/-- Each step of the caller and of a callback lowers the work, and a spurious wake-up adds one. -/
theorem work_step (hs : step s l = some s') :
    s'.work + l.internal.toNat ≤ s.work + l.isSpurious.toNat := by
  cases l with
  | resolve v =>
    simp only [step] at hs
    split at hs
    · cases hs
    · cases hs
      exact Nat.le_refl _
  | advance =>
    have hlt := work_advance hs
    simp only [Label.internal, Label.isSpurious, Bool.toNat_true, Bool.toNat_false]
    omega
  | fire j =>
    have hlt := work_fire hs
    simp only [Label.internal, Label.isSpurious, Bool.toNat_true, Bool.toNat_false]
    omega
  | spurious =>
    simp only [step] at hs
    split at hs
    · rename_i hpc
      cases hs
      simp only [St.work, hpc, Pc.work, Label.internal, Label.isSpurious, Bool.toNat_true, Bool.toNat_false]
      omega
    · cases hs

/-! ## All runs -/

theorem exists_fire {c : Callback α} (hc : c ∈ s.callbacks) (hdone : c.phase ≠ .done)
    (hv : s.avail c.value = true) : ∃ (l : Label α) (s' : St α), l.internal = true ∧ step s l = some s' := by
  obtain ⟨j, hj⟩ := List.mem_iff_getElem?.mp hc
  obtain ⟨s', hs'⟩ := fire_enabled hj hdone hv
  exact ⟨.fire j, s', rfl, hs'⟩

/-- **No wake-up is lost.** While the values are available and `Await` has not returned, the caller or a
callback can move. -/
theorem Inv.exists_internal (h : Inv values s) (ha : ∀ v ∈ values, s.avail v = true)
    (hr : s.pc ≠ .returned) :
    ∃ (l : Label α) (s' : St α), l.internal = true ∧ MultiThreadedAwait.step s l = some s' := by
  have hvalue : ∀ c ∈ s.callbacks, s.avail c.value = true := fun c hc => ha _ (by
    rw [← h.values]
    exact List.mem_append_left _ (List.mem_map_of_mem hc))
  have hadvance : ∀ {t : St α}, s.advance = some t →
      ∃ (l : Label α) (s' : St α), l.internal = true ∧ MultiThreadedAwait.step s l = some s' :=
    fun ht => ⟨.advance, _, rfl, ht⟩
  cases hpc : s.pc with
  | register rest =>
    cases rest with
    | nil => exact hadvance (by simp only [St.advance, hpc]; rfl)
    | cons v rest => exact hadvance (by simp only [St.advance, hpc]; rfl)
  | inline rest =>
    obtain ⟨⟨v, p⟩, hc, hw⟩ := h.inline rest hpc
    cases p with
    | done => exact hadvance (by simp only [St.advance, hpc, hc]; rfl)
    | waiting => exact absurd rfl hw
    | countDown | notify =>
      exact exists_fire (List.mem_of_getLast? hc) (by simp) (hvalue _ (List.mem_of_getLast? hc))
  | wait => exact hadvance (by simp only [St.advance, hpc]; rfl)
  | locking => exact hadvance (by simp only [St.advance, hpc]; rfl)
  | returned => exact absurd hpc hr
  | blocked =>
    -- the callback that counts down last, or the one that notifies
    have hwake := h.wake
    rw [hpc] at hwake
    obtain ⟨c, hc, hdone⟩ : ∃ c ∈ s.callbacks, c.phase ≠ .done := by
      by_cases hdue : s.due = 0
      · have hn : s.notifiers = 1 := hwake.2.trans (if_pos hdue)
        obtain ⟨c, hc, hp⟩ := List.countP_pos_iff.mp (show 0 < s.callbacks.countP Callback.notifies by
          rw [show s.callbacks.countP Callback.notifies = 1 from hn]
          decide)
        exact ⟨c, hc, fun hd => by simp [Callback.notifies, hd] at hp⟩
      · have hpos : 0 < s.callbacks.countP Callback.pending := by
          have hd : s.due = s.callbacks.countP Callback.pending := due_eq (by rw [hpc]; rfl)
          omega
        obtain ⟨c, hc, hp⟩ := List.countP_pos_iff.mp hpos
        exact ⟨c, hc, fun hd => by simp [Callback.pending, hd] at hp⟩
    exact exists_fire hc hdone (hvalue c hc)

/-- A call of `Await`, from the state `s` on. -/
structure Correct (avail : α → Bool) (values : List α) (s : St α) : Prop where
  /-- `Await` returns when the values are available and the callbacks are through with the latch. -/
  returned : s.pc = .returned →
    (∀ v ∈ values, s.avail v = true) ∧ ∀ c ∈ s.callbacks, c.phase = .done
  /-- No assertion fails, and the latch is not used after `Await` returned. -/
  defined : s.failed = false ∧ s.misused = false
  /-- There are finitely many steps, but for spurious wake-ups. -/
  bounded : ∀ ls s', (sys avail values).Path Any s ls s' →
    s'.work + (ls.map fun l => l.internal.toNat).sum ≤ s.work + (ls.map fun l => l.isSpurious.toNat).sum
  /-- When the values are available, the steps of the caller and the callbacks lead to the return. -/
  returns : (∀ v ∈ values, s.avail v = true) →
    ∃ ls s', (∀ l ∈ ls, l.internal = true) ∧ (sys avail values).Path Any s ls s' ∧ s'.pc = .returned

theorem step_avail (hs : step s l = some s') (v : α) (hv : s.avail v = true) : s'.avail v = true := by
  cases l with
  | resolve w =>
    simp only [step] at hs
    split at hs
    · cases hs
    · cases hs
      show Function.update s.avail w true v = true
      by_cases hvw : v = w
      · rw [hvw, Function.update_self]
      · rwa [Function.update_of_ne hvw]
  | advance => rwa [advance_avail hs]
  | fire j => rwa [fire_avail hs]
  | spurious =>
    simp only [step] at hs
    split at hs
    · cases hs
      exact hv
    · cases hs

/-- **`Await` returns exactly when all values are available**, and leaves nobody with its latch. -/
theorem await_correct (hlen : values.length < 2 ^ 63) (hs : (sys avail values).Reach Any s) :
    Correct avail values s := by
  have h := inv_reach hlen hs
  refine ⟨fun hr => ?_, ⟨h.failed, h.misused⟩, fun ls s' hp => ?_, fun ha => ?_⟩
  · have hwake := h.wake
    have hvalues := h.values
    rw [hr] at hwake hvalues
    obtain ⟨hdue, hn⟩ := hwake
    have hdone : ∀ c ∈ s.callbacks, c.phase = .done := fun c hc => by
      have h1 := List.countP_eq_zero.mp (Nat.add_eq_zero_iff.mp hdue).1 c hc
      have h2 := List.countP_eq_zero.mp hn c hc
      cases hp : c.phase <;> simp_all [Callback.pending, Callback.notifies]
    refine ⟨fun v hv => ?_, hdone⟩
    rw [← hvalues, show (Pc.returned : Pc α).rest = [] from rfl, List.append_nil] at hv
    obtain ⟨c, hc, rfl⟩ := List.mem_map.mp hv
    exact h.ready c hc (by simp [hdone c hc])
  · exact hp.amortized St.work (fun l => l.internal.toNat) (fun l => l.isSpurious.toNat)
      (I := fun _ => True) (fun _ _ _ _ _ _ => trivial) (fun _ _ _ _ _ hn => work_step hn) trivial
  · refine exists_path (I := fun s => Inv values s ∧ ∀ v ∈ values, s.avail v = true) St.work
      (fun l : Label α => l.internal = true)
      (fun s l s' hi _ hn => ⟨hi.1.step hn, fun v hv => step_avail hn v (hi.2 v hv)⟩)
      (fun s hi hr => ?_) ⟨h, ha⟩
    obtain ⟨l, s', hl, hn⟩ := hi.1.exists_internal hi.2 hr
    refine ⟨l, s', hl, trivial, hn, ?_⟩
    have hw := work_step hn
    have hsp : l.isSpurious = false := by
      cases l <;> first | rfl | cases hl
    rw [hl, hsp, Bool.toNat_true, Bool.toNat_false] at hw
    omega

end Work

/-- Two values, the first one available. The other one is resolved when the caller is blocked: its callback
wakes it. -/
def wakes : List (Label Nat) :=
  [.advance, .fire 0, .advance, .advance, .advance, .advance, .advance, .resolve 1, .fire 1, .fire 1, .fire 1,
    .advance]

theorem await_correct_two : ∃ s : St Nat, s.pc = .returned ∧
    Correct (fun v => decide (v = 0)) [0, 1] s := by
  have hr : ∀ s, runLabels step (init (fun v => decide (v = 0)) [0, 1]) wakes = some s →
      Correct (fun v => decide (v = 0)) [0, 1] s := fun s h =>
    await_correct (by decide) ((path_runLabels wakes (fun _ _ _ => trivial) h).reach (.init rfl))
  have hrun : ((runLabels step (init (fun v => decide (v = 0)) [0, 1]) wakes).map St.pc) =
      some .returned := by decide +kernel
  obtain ⟨s, hs, hpc⟩ := Option.map_eq_some_iff.mp hrun
  exact ⟨s, hpc, hr s hs⟩

end MultiThreadedAwait

end AsyncLib
