import AsyncLib.Concurrent.EventCount
import AsyncLib.Lib.Simulation
import Mathlib.Data.Finset.Card

/-!
# What `EventCount` is for

A set of threads that may be waiting, and the set of those that a notification has chosen. This is a
statement of the purpose of `async/concurrent/event_count.h`, not a translation of it.

* `Waiting.Step`: one operation takes effect. Every operation names the thread it is about, and a
  notification chooses the thread that it notifies.
* `takeover` tells two machines apart: with it, a thread that begins to wait may take over the
  notification of a thread that has not committed yet.
* `Waiting.apply`: the same as a function, which other models run.
* `Waiting.Wf`: only a thread that waits is notified.
-/

namespace AsyncLib

namespace EventCount

open Sys

/-- The threads that wait, and those that were notified. -/
structure Waiting where
  /-- The threads that have finished `Prewait` and neither cancelled nor committed. -/
  pre : Finset Tid
  /-- The threads that have committed and not returned. -/
  blocked : Finset Tid
  /-- The threads that a notification has chosen. -/
  notified : Finset Tid
  deriving DecidableEq

/-- One operation takes effect. -/
inductive Waiting.Step (takeover : Bool) : Waiting → Event → Waiting → Prop
  | prewait {a : Waiting} {t : Tid} : t ∉ a.pre ∪ a.blocked →
      Step takeover a (.prewait t) { a with pre := insert t a.pre }
  | takeover {a : Waiting} {t u : Tid} : takeover = true → t ∉ a.pre ∪ a.blocked → u ∈ a.pre →
      u ∈ a.notified →
      Step takeover a (.prewait t)
        { a with pre := insert t a.pre, notified := insert t (a.notified.erase u) }
  /-- The notification of a thread that cancels is lost only if all others have theirs. -/
  | cancel {a : Waiting} {t : Tid} : t ∈ a.pre → (t ∈ a.notified → a.pre ⊆ a.notified) →
      Step takeover a (.cancel t)
        { a with pre := a.pre.erase t, notified := a.notified.erase t }
  | take {a : Waiting} {t : Tid} : t ∈ a.pre → t ∈ a.notified →
      Step takeover a (.take t)
        { a with pre := a.pre.erase t, notified := a.notified.erase t }
  | park {a : Waiting} {t : Tid} : t ∈ a.pre → t ∉ a.notified →
      Step takeover a (.park t)
        { a with pre := a.pre.erase t, blocked := insert t a.blocked }
  | wake {a : Waiting} {t : Tid} : t ∈ a.blocked → t ∈ a.notified →
      Step takeover a (.wake t)
        { a with blocked := a.blocked.erase t, notified := a.notified.erase t }
  | notifyOne {a : Waiting} {t : Tid} : t ∈ a.pre ∪ a.blocked → t ∉ a.notified →
      Step takeover a (.notify false) { a with notified := insert t a.notified }
  | notifyNone {a : Waiting} : a.pre ∪ a.blocked ⊆ a.notified →
      Step takeover a (.notify false) a
  | notifyAll {a : Waiting} :
      Step takeover a (.notify true) { a with notified := a.pre ∪ a.blocked }

/-- The machine as a function. `pick` is the thread that a notification chooses, or the one whose
notification is taken over. -/
def Waiting.apply (takeover : Bool) (a : Waiting) (pick : Option Tid) : Event → Option Waiting
  | .prewait t =>
    if t ∈ a.pre ∪ a.blocked then none
    else
      match pick with
      | none => some { a with pre := insert t a.pre }
      | some u =>
        if takeover = true ∧ u ∈ a.pre ∧ u ∈ a.notified then
          some { a with pre := insert t a.pre, notified := insert t (a.notified.erase u) }
        else none
  | .cancel t =>
    if t ∈ a.pre ∧ (t ∈ a.notified → a.pre ⊆ a.notified) then
      some { a with pre := a.pre.erase t, notified := a.notified.erase t }
    else none
  | .take t =>
    if t ∈ a.pre ∧ t ∈ a.notified then
      some { a with pre := a.pre.erase t, notified := a.notified.erase t }
    else none
  | .park t =>
    if t ∈ a.pre ∧ t ∉ a.notified then
      some { a with pre := a.pre.erase t, blocked := insert t a.blocked }
    else none
  | .wake t =>
    if t ∈ a.blocked ∧ t ∈ a.notified then
      some { a with blocked := a.blocked.erase t, notified := a.notified.erase t }
    else none
  | .notify false =>
    match pick with
    | none => if a.pre ∪ a.blocked ⊆ a.notified then some a else none
    | some t =>
      if t ∈ a.pre ∪ a.blocked ∧ t ∉ a.notified then
        some { a with notified := insert t a.notified }
      else none
  | .notify true => some { a with notified := a.pre ∪ a.blocked }

/-- The function computes the steps of the machine, and all of them. -/
theorem Waiting.apply_iff {takeover : Bool} {a a' : Waiting} {e : Event} :
    (∃ pick, a.apply takeover pick e = some a') ↔ Waiting.Step takeover a e a' := by
  constructor
  · rintro ⟨pick, h⟩
    cases e with
    | prewait t =>
      simp only [apply, Option.ite_none_left_eq_some] at h
      obtain ⟨hfree, h⟩ := h
      cases pick with
      | none =>
        obtain rfl := Option.some.inj h
        exact .prewait hfree
      | some u =>
        simp only [Option.ite_none_right_eq_some] at h
        obtain ⟨⟨ht, hu, hu'⟩, h⟩ := h
        obtain rfl := Option.some.inj h
        exact .takeover ht hfree hu hu'
    | cancel t =>
      obtain ⟨⟨h1, h2⟩, h⟩ := Option.ite_none_right_eq_some.mp h
      obtain rfl := Option.some.inj h
      exact .cancel h1 h2
    | take t =>
      obtain ⟨⟨h1, h2⟩, h⟩ := Option.ite_none_right_eq_some.mp h
      obtain rfl := Option.some.inj h
      exact .take h1 h2
    | park t =>
      obtain ⟨⟨h1, h2⟩, h⟩ := Option.ite_none_right_eq_some.mp h
      obtain rfl := Option.some.inj h
      exact .park h1 h2
    | wake t =>
      obtain ⟨⟨h1, h2⟩, h⟩ := Option.ite_none_right_eq_some.mp h
      obtain rfl := Option.some.inj h
      exact .wake h1 h2
    | notify all =>
      cases all with
      | true =>
        obtain rfl := Option.some.inj h
        exact .notifyAll
      | false =>
        cases pick with
        | none =>
          obtain ⟨h1, h⟩ := Option.ite_none_right_eq_some.mp h
          obtain rfl := Option.some.inj h
          exact .notifyNone h1
        | some t =>
          obtain ⟨⟨h1, h2⟩, h⟩ := Option.ite_none_right_eq_some.mp h
          obtain rfl := Option.some.inj h
          exact .notifyOne h1 h2
  · intro h
    cases h with
    | prewait hfree => exact ⟨none, if_neg hfree⟩
    | takeover ht hfree hu hu' =>
      exact ⟨some _, (if_neg hfree).trans (if_pos ⟨ht, hu, hu'⟩)⟩
    | cancel h1 h2 => exact ⟨none, if_pos ⟨h1, h2⟩⟩
    | take h1 h2 => exact ⟨none, if_pos ⟨h1, h2⟩⟩
    | park h1 h2 => exact ⟨none, if_pos ⟨h1, h2⟩⟩
    | wake h1 h2 => exact ⟨none, if_pos ⟨h1, h2⟩⟩
    | @notifyOne t h1 h2 => exact ⟨some t, if_pos ⟨h1, h2⟩⟩
    | notifyNone h1 => exact ⟨none, if_pos h1⟩
    | notifyAll => exact ⟨none, rfl⟩

/-- The system of `Waiting.Step`, nobody waiting at first. -/
def waiting (takeover : Bool) : Sys Waiting Event where
  init a := a = ⟨∅, ∅, ∅⟩
  next := Waiting.Step takeover

/-- Only a thread that waits is notified, and it waits in one way. -/
structure Waiting.Wf (a : Waiting) : Prop where
  notified : a.notified ⊆ a.pre ∪ a.blocked
  disjoint : Disjoint a.pre a.blocked

theorem Waiting.Step.wf {takeover : Bool} {a a' : Waiting} {e : Event}
    (h : Waiting.Step takeover a e a') (hw : a.Wf) : a'.Wf := by
  obtain ⟨h1, h2⟩ := hw
  rw [Finset.disjoint_left] at h2
  cases h <;> refine ⟨fun x hx => ?_, Finset.disjoint_left.mpr fun x hx hx' => ?_⟩ <;>
    simp only [Finset.mem_insert, Finset.mem_erase, Finset.mem_union, Finset.subset_iff] at * <;>
    grind

end EventCount

end AsyncLib
