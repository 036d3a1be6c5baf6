import AsyncLib.Lib.Modify
import AsyncLib.Lib.System

/-!
# `Batch::Close` and `Batch::WaitUntilClosed`

`async/runtime/batch_task.h`. `Close` notifies the condition variable and then stores the flag;
`WaitUntilClosed` waits on the condition variable once, with no predicate. Any number of threads wait,
and any number of calls of `Close` are made.

* `Waiter`, `Closer`: where a thread is. The start of a wait is one step: the mutex is released as the
  thread blocks. A blocked thread may wake up spuriously.
* `Timely`: no wait begins after a notification, and none wakes up before a call of `Close`.
* `waitUntilClosed_correct`: in the runs whose steps are timely nobody waits for a closed batch, and
  no wait returns too early; any other step can lead to one or the other.
-/

namespace AsyncLib

namespace BatchClose

open Sys

/-! ## The code -/

/-- Where a thread is in `WaitUntilClosed`. -/
inductive Waiter where
  | idle
  /-- In `mNotifier.wait(lk)`. -/
  | blocked
  /-- Notified, or awake spuriously; before it has the mutex again. -/
  | awake
  /-- It returned, `called` if a call of `Close` had begun by then. -/
  | returned (called : Bool)
  deriving DecidableEq, Repr

/-- Where a thread is in `Close`. -/
inductive Closer where
  | idle
  /-- Before `mNotifier.notify_all()`. -/
  | called
  /-- Before `mClosed.store(true)`. -/
  | notified
  | returned
  deriving DecidableEq, Repr

/-- `mClosed`, the calls of `WaitUntilClosed` and those of `Close`. -/
structure St where
  mClosed : Bool
  waiters : List Waiter
  closers : List Closer
  deriving DecidableEq, Repr

/-- A step of a waiter or of a closer, or a spurious wake-up. -/
inductive Label where
  /-- `WaitUntilClosed` takes the mutex and blocks. -/
  | wait (t : Nat)
  | spurious (t : Nat)
  /-- An awake thread has the mutex again, and returns. -/
  | leave (t : Nat)
  | call (c : Nat)
  | notifyAll (c : Nat)
  | store (c : Nat)
  deriving DecidableEq, Repr

/-- A blocked thread is notified. -/
def Waiter.notify : Waiter → Waiter
  | .blocked => .awake
  | w => w

/-- A call of `Close` has begun. -/
def St.called (s : St) : Bool := s.closers.any (· ≠ .idle)

/-- One step; `none` if it is not enabled. -/
def step (s : St) : Label → Option St
  | .wait t =>
    if s.waiters[t]? = some .idle then some { s with waiters := s.waiters.set t .blocked } else none
  | .spurious t =>
    if s.waiters[t]? = some .blocked then some { s with waiters := s.waiters.set t .awake } else none
  | .leave t =>
    if s.waiters[t]? = some .awake then
      some { s with waiters := s.waiters.set t (.returned s.called) }
    else none
  | .call c =>
    if s.closers[c]? = some .idle then some { s with closers := s.closers.set c .called } else none
  | .notifyAll c =>
    if s.closers[c]? = some .called then
      some { s with waiters := s.waiters.map Waiter.notify, closers := s.closers.set c .notified }
    else none
  | .store c =>
    if s.closers[c]? = some .notified then
      some { s with mClosed := true, closers := s.closers.set c .returned }
    else none

/-- No call has begun. -/
def init (waiters closers : Nat) : St where
  mClosed := false
  waiters := List.replicate waiters .idle
  closers := List.replicate closers .idle

/-- All runs with so many waiters and closers. -/
def sys (waiters closers : Nat) : Sys St Label := ofFun (init waiters closers) step

/-! ## Waits that end in time -/

/-- No thread is blocked when a call of `Close` has returned, and no wait returned before one had
begun. -/
structure Correct (s : St) : Prop where
  closed : .returned ∈ s.closers → .blocked ∉ s.waiters
  called : .returned false ∉ s.waiters

/-- `notify_all` was called. -/
def Closer.isNotified : Closer → Bool
  | .notified | .returned => true
  | .idle | .called => false

/-- No wait begins after a notification, and none wakes up before a call of `Close`. -/
def Timely (s : St) : Label → Prop
  | .wait _ => ∀ c ∈ s.closers, c.isNotified = false
  | .spurious _ => s.called = true
  | _ => True

instance (s : St) (l : Label) : Decidable (Timely s l) := by
  cases l <;> unfold Timely <;> infer_instance

/-- After a notification nobody is blocked, and only a notification or an early return wakes. -/
structure Inv (s : St) : Prop where
  blocked : (∃ c ∈ s.closers, c.isNotified = true) → .blocked ∉ s.waiters
  awake : .awake ∈ s.waiters → s.called = true
  returned : .returned false ∉ s.waiters

section Steps

variable {s s' : St} {l : Label}

theorem called_set {t : Nat} {x y : Closer} (ht : s.closers[t]? = some x) (hy : y ≠ .idle) :
    (s.closers.set t y).any (· ≠ .idle) = true := by
  obtain ⟨hlt, -⟩ := List.getElem?_eq_some_iff.mp ht
  rw [List.any_eq_true]
  exact ⟨y, List.mem_set hlt y, by simpa using hy⟩

theorem ne_of_set {l : List Waiter} {t : Nat} {x y : Waiter} (h : x ∉ l) (hne : y ≠ x) :
    x ∉ l.set t y := by
  intro hm
  rcases List.mem_or_eq_of_mem_set hm with hm | rfl
  · exact h hm
  · exact hne rfl

theorem mem_notify {l : List Waiter} {w : Waiter} (h : w ∈ l.map Waiter.notify) :
    w ≠ .blocked ∧ (w ≠ .awake → w ∈ l) := by
  obtain ⟨v, hv, rfl⟩ := List.mem_map.mp h
  cases v with
  | blocked => exact ⟨nofun, fun hne => absurd rfl hne⟩
  | _ => exact ⟨nofun, fun _ => hv⟩

theorem Inv.step (h : Inv s) (hok : Timely s l) (hs : BatchClose.step s l = some s') : Inv s' := by
  cases l with
  | wait t =>
    obtain ⟨ht, hs⟩ := Option.ite_none_right_eq_some.mp hs
    cases hs
    refine ⟨fun ⟨c, hc, hn⟩ => ?_, fun hm => h.awake ?_, ne_of_set h.returned nofun⟩
    · rw [hok c hc] at hn
      cases hn
    · rcases List.mem_or_eq_of_mem_set hm with hm | he
      · exact hm
      · cases he
  | spurious t =>
    obtain ⟨ht, hs⟩ := Option.ite_none_right_eq_some.mp hs
    cases hs
    exact ⟨fun hc => ne_of_set (h.blocked hc) nofun, fun _ => hok, ne_of_set h.returned nofun⟩
  | leave t =>
    obtain ⟨ht, hs⟩ := Option.ite_none_right_eq_some.mp hs
    cases hs
    have hcalled := h.awake (List.mem_of_getElem? ht)
    refine ⟨fun hc => ne_of_set (h.blocked hc) nofun, fun _ => hcalled, ?_⟩
    rw [hcalled]
    exact ne_of_set h.returned nofun
  | call c =>
    obtain ⟨hc, hs⟩ := Option.ite_none_right_eq_some.mp hs
    cases hs
    refine ⟨?_, fun _ => called_set hc nofun, h.returned⟩
    rintro ⟨d, hd, hn⟩
    rcases List.mem_or_eq_of_mem_set hd with hd | rfl
    · exact h.blocked ⟨d, hd, hn⟩
    · cases hn
  | notifyAll c =>
    obtain ⟨hc, hs⟩ := Option.ite_none_right_eq_some.mp hs
    cases hs
    exact ⟨fun _ hm => (mem_notify hm).1 rfl, fun _ => called_set hc nofun,
      fun hm => h.returned ((mem_notify hm).2 nofun)⟩
  | store c =>
    obtain ⟨hc, hs⟩ := Option.ite_none_right_eq_some.mp hs
    cases hs
    have hblocked := h.blocked ⟨.notified, List.mem_of_getElem? hc, rfl⟩
    exact ⟨fun _ => hblocked, fun _ => called_set hc nofun, h.returned⟩

theorem inv_init (waiters closers : Nat) : Inv (init waiters closers) where
  blocked _ hm := nomatch List.eq_of_mem_replicate hm
  awake hm := nomatch List.eq_of_mem_replicate hm
  returned hm := nomatch List.eq_of_mem_replicate hm

theorem Inv.correct (h : Inv s) : Correct s where
  closed hr := h.blocked ⟨.returned, hr, rfl⟩
  called := h.returned

/-- A wait that begins after a notification is blocked when that call of `Close` has returned. -/
theorem late_wait {t : Nat} (hs : BatchClose.step s (.wait t) = some s')
    (hbad : ¬ Timely s (.wait t)) :
    ∃ ls s'', runLabels BatchClose.step s' ls = some s'' ∧ ¬ Correct s'' := by
  obtain ⟨ht, hs⟩ := Option.ite_none_right_eq_some.mp hs
  cases hs
  obtain ⟨c, hc, hn⟩ : ∃ c ∈ s.closers, c.isNotified = true := by
    by_contra hnone
    exact hbad fun c hc => Bool.eq_false_iff.mpr fun hn => hnone ⟨c, hc, hn⟩
  have hblocked : Waiter.blocked ∈ s.waiters.set t .blocked :=
    List.mem_set (List.getElem?_eq_some_iff.mp ht).1 _
  cases c with
  | returned => exact ⟨[], _, rfl, fun h => h.closed hc hblocked⟩
  | notified =>
    obtain ⟨i, hi⟩ := List.mem_iff_getElem?.mp hc
    have hlt := (List.getElem?_eq_some_iff.mp hi).1
    refine ⟨[.store i], _, Option.bind_eq_some_iff.mpr ⟨_, if_pos hi, rfl⟩, fun h => ?_⟩
    exact h.closed (List.mem_set hlt _) hblocked
  | idle | called => cases hn

/-- A wait that wakes up before any call of `Close` returns before one. -/
theorem early_wake {t : Nat} (hs : BatchClose.step s (.spurious t) = some s')
    (hbad : ¬ Timely s (.spurious t)) :
    ∃ ls s'', runLabels BatchClose.step s' ls = some s'' ∧ ¬ Correct s'' := by
  obtain ⟨ht, hs⟩ := Option.ite_none_right_eq_some.mp hs
  cases hs
  have hlt := (List.getElem?_eq_some_iff.mp ht).1
  have hnot : s.called = false := Bool.eq_false_iff.mpr hbad
  have hawake : (s.waiters.set t .awake)[t]? = some .awake := List.getElem?_set_self hlt
  refine ⟨[.leave t], _, Option.bind_eq_some_iff.mpr ⟨_, if_pos hawake, rfl⟩, fun h => ?_⟩
  refine h.called ?_
  show Waiter.returned false ∈ (s.waiters.set t .awake).set t (.returned s.called)
  rw [hnot]
  exact List.mem_set (by rwa [List.length_set]) _

end Steps

/-- **Nobody waits for a closed batch, and no wait returns before `Close`, in the runs in which no wait
begins after a notification and none wakes up before a call of `Close`; any other step can lead to one
or the other.** -/
theorem waitUntilClosed_correct (waiters closers : Nat) :
    (∀ s, (sys waiters closers).Reach Timely s → Correct s) ∧
      ∀ s l s', (sys waiters closers).Reach Any s → (sys waiters closers).next s l s' →
        ¬ Timely s l → ∃ ls s'', runLabels step s' ls = some s'' ∧ ¬ Correct s'' := by
  constructor
  · intro s hs
    have hinv : Inv s := by
      refine hs.invariant ?_ ?_
      · rintro s rfl
        exact inv_init waiters closers
      · intro s l s' h hok hn
        exact h.step hok hn
    exact hinv.correct
  · intro s l s' _ hn hbad
    cases l with
    | wait t => exact late_wait hn hbad
    | spurious t => exact early_wake hn hbad
    | leave _ | call _ | notifyAll _ | store _ => exact absurd trivial hbad

/-- `Close` runs to its end before the thread waits, which is blocked for good. -/
theorem not_waitUntilClosed : ¬ ∀ s, (sys 1 1).Reach Any s → Correct s := by
  intro h
  have hr : ∀ s, runLabels step (init 1 1) [.call 0, .notifyAll 0, .store 0, .wait 0] = some s →
      Correct s := fun s hs =>
    h s (reach_runLabels (fun _ => True) (.init rfl) _ (fun _ _ => trivial) hs)
  exact (hr _ rfl).closed (by decide) (by decide)

/-- Two threads wait, one of them wakes up spuriously during `Close`. -/
theorem waitUntilClosed_correct_two : ∃ s, s.mClosed = true ∧
    s.waiters = [.returned true, .returned true] ∧ Correct s := by
  have hr : ∀ s, runLabels (guarded step Timely) (init 2 1) [.wait 0, .wait 1, .call 0, .spurious 1,
      .leave 1, .notifyAll 0, .store 0, .leave 0] = some s → Correct s := fun s hs =>
    (waitUntilClosed_correct 2 1).1 s (reach_guarded (.init rfl) _ hs)
  exact ⟨_, rfl, rfl, hr _ rfl⟩

end BatchClose

end AsyncLib
