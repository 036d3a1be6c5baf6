import Mathlib.Logic.Relation
import Mathlib.Algebra.GroupWithZero.Nat
import Mathlib.Algebra.Group.Int.Defs

/-!
# Labelled systems, their runs and invariants

A **system** is a type of states, the initial states and labelled atomic steps; the label says who
moved and how the step's free choices fell. A statement over all schedules is a property of every
state that a run reaches.

* `Sys.Reach ok s`: some run reaches `s`, and every step of it met `ok`. `ok` is a condition on the
  state before the step and the label, so `Sys.Any` gives all runs and a stronger `ok` gives the
  runs of a restricted environment.
* `Reach.invariant`: what holds initially and is kept by every step that meets `ok` holds in every
  state reached. `Reach.invariant_of` proves one invariant with the help of another.
* `Sys.ofFun`: the system of a step function. `runLabels` runs it along a list of labels, so that
  a concrete run is a computation (`reach_runLabels`; `reach_guarded` for a condition that depends on
  the state).
* `Sys.Path`: a run from one state to another with its labels. `Path.amortized`: a potential bounds
  the number of its steps; `exists_path`: a potential that falls leads to a final state.
* `Sys.tally`: the system with a count of the steps of one kind. `tally_last`: a count that goes down
  in steps of one, and never up again from zero, reaches zero once.
-/

namespace AsyncLib

/-- A labelled system: initial states and labelled atomic steps. -/
structure Sys (σ lab : Type) where
  init : σ → Prop
  next : σ → lab → σ → Prop

namespace Sys

variable {σ lab : Type}

/-- No condition on the steps. -/
def Any : σ → lab → Prop := fun _ _ => True

/-- The states that a run reaches all of whose steps meet `ok`. -/
inductive Reach (S : Sys σ lab) (ok : σ → lab → Prop) : σ → Prop
  | init {s : σ} : S.init s → Reach S ok s
  | step {s s' : σ} {l : lab} : Reach S ok s → ok s l → S.next s l s' → Reach S ok s'

variable {S : Sys σ lab} {ok ok' : σ → lab → Prop}

/-- The invariant rule. -/
theorem Reach.invariant {I : σ → Prop} (h0 : ∀ s, S.init s → I s)
    (hstep : ∀ s l s', I s → ok s l → S.next s l s' → I s') {s : σ} (hs : S.Reach ok s) : I s := by
  induction hs with
  | init hi => exact h0 _ hi
  | step _ hok hn ih => exact hstep _ _ _ ih hok hn

/-- The invariant rule, with an invariant `J` that is known already. -/
theorem Reach.invariant_of {I J : σ → Prop} (hJ : ∀ s, S.Reach ok s → J s)
    (h0 : ∀ s, S.init s → I s)
    (hstep : ∀ s l s', J s → I s → ok s l → S.next s l s' → I s') {s : σ}
    (hs : S.Reach ok s) : I s := by
  induction hs with
  | init hi => exact h0 _ hi
  | step hr hok hn ih => exact hstep _ _ _ (hJ _ hr) ih hok hn

/-- A run of a restricted environment is a run. -/
theorem Reach.mono (h : ∀ s l, ok s l → ok' s l) {s : σ} (hs : S.Reach ok s) : S.Reach ok' s := by
  induction hs with
  | init hi => exact .init hi
  | step _ hok hn ih => exact .step ih (h _ _ hok) hn

/-- The system of a step function from one state. -/
def ofFun (s₀ : σ) (step : σ → lab → Option σ) : Sys σ lab where
  init s := s = s₀
  next s l s' := step s l = some s'

/-- The state after the labels `ls`, if each of them is enabled. -/
def runLabels (step : σ → lab → Option σ) : σ → List lab → Option σ
  | s, [] => some s
  | s, l :: ls => (step s l).bind fun s' => runLabels step s' ls

theorem runLabels_append {step : σ → lab → Option σ} (s : σ) (ls ls' : List lab) :
    runLabels step s (ls ++ ls') = (runLabels step s ls).bind fun s' => runLabels step s' ls' := by
  induction ls generalizing s with
  | nil => rfl
  | cons l ls ih =>
    rw [List.cons_append, runLabels, runLabels, Option.bind_assoc]
    exact congrArg _ (funext fun s' => ih s')

/-- A run along a list of labels is a run of the system. -/
theorem reach_runLabels {step : σ → lab → Option σ} {s₀ s s' : σ} (p : lab → Prop)
    (hs : (ofFun s₀ step).Reach (fun _ l => p l) s) (ls : List lab) (hl : ∀ l ∈ ls, p l)
    (hr : runLabels step s ls = some s') : (ofFun s₀ step).Reach (fun _ l => p l) s' := by
  induction ls generalizing s with
  | nil =>
    cases hr
    exact hs
  | cons l ls ih =>
    obtain ⟨s₁, h1, h2⟩ := Option.bind_eq_some_iff.mp hr
    exact ih (.step hs (hl l (by simp)) h1) (fun l' h' => hl l' (by simp [h'])) h2

/-- The step function, where `ok` holds. -/
def guarded (step : σ → lab → Option σ) (ok : σ → lab → Prop) [∀ s l, Decidable (ok s l)] (s : σ)
    (l : lab) : Option σ := if ok s l then step s l else none

/-- A run of the guarded steps is a run each of whose steps meets `ok`. -/
theorem reach_guarded {step : σ → lab → Option σ} [∀ s l, Decidable (ok s l)] {s₀ s s' : σ}
    (hs : (ofFun s₀ step).Reach ok s) (ls : List lab)
    (hr : runLabels (guarded step ok) s ls = some s') : (ofFun s₀ step).Reach ok s' := by
  induction ls generalizing s with
  | nil =>
    cases hr
    exact hs
  | cons l ls ih =>
    obtain ⟨s₁, h1, h2⟩ := Option.bind_eq_some_iff.mp hr
    obtain ⟨hok, hstep⟩ := Option.ite_none_right_eq_some.mp h1
    exact ih (.step hs hok hstep) h2

/-! ## Paths -/

/-- `ls` leads from `s` to `s'` by steps that meet `ok`. -/
inductive Path (S : Sys σ lab) (ok : σ → lab → Prop) : σ → List lab → σ → Prop
  | nil (s : σ) : Path S ok s [] s
  | cons {s s' s'' : σ} {l : lab} {ls : List lab} : ok s l → S.next s l s' → Path S ok s' ls s'' →
    Path S ok s (l :: ls) s''

theorem Path.reach {s s' : σ} {ls : List lab} (hp : S.Path ok s ls s') (hs : S.Reach ok s) :
    S.Reach ok s' := by
  induction hp with
  | nil s => exact hs
  | cons hok hn _ ih => exact ih (.step hs hok hn)

/-- A run along a list of labels is a path. -/
theorem path_runLabels {step : σ → lab → Option σ} {s₀ s s' : σ} (ls : List lab)
    (hl : ∀ l ∈ ls, ∀ s, ok s l) (hr : runLabels step s ls = some s') :
    (ofFun s₀ step).Path ok s ls s' := by
  induction ls generalizing s with
  | nil =>
    cases hr
    exact .nil _
  | cons l ls ih =>
    obtain ⟨s₁, h1, h2⟩ := Option.bind_eq_some_iff.mp hr
    exact .cons (hl l (by simp) s) h1 (ih (fun l' h' => hl l' (by simp [h'])) h2)

/-- The amortised bound: each step is paid for by the potential that it takes away and by what its
label brings in. -/
theorem Path.amortized {I : σ → Prop} (potential : σ → Nat) (spent gained : lab → Nat)
    (hI : ∀ s l s', I s → ok s l → S.next s l s' → I s')
    (hstep : ∀ s l s', I s → ok s l → S.next s l s' →
      potential s' + spent l ≤ potential s + gained l)
    {s s' : σ} {ls : List lab} (hp : S.Path ok s ls s') (hs : I s) :
    potential s' + (ls.map spent).sum ≤ potential s + (ls.map gained).sum := by
  induction hp with
  | nil s => exact Nat.le_refl _
  | cons hok hn _ ih =>
    have h1 := hstep _ _ _ hs hok hn
    have h2 := ih (hI _ _ _ hs hok hn)
    simp only [List.map_cons, List.sum_cons]
    omega

/-- If every state that is not final has a step of the kind `p` that lowers the potential, then steps
of this kind lead to a final state. -/
theorem exists_path {I final : σ → Prop} (potential : σ → Nat) (p : lab → Prop)
    (hI : ∀ s l s', I s → ok s l → S.next s l s' → I s')
    (hstep : ∀ s, I s → ¬ final s → ∃ l s', p l ∧ ok s l ∧ S.next s l s' ∧
      potential s' < potential s) {s : σ} (hs : I s) :
    ∃ ls s', (∀ l ∈ ls, p l) ∧ S.Path ok s ls s' ∧ final s' := by
  induction hm : potential s using Nat.strongRecOn generalizing s with
  | ind m ih =>
    subst hm
    by_cases hf : final s
    · exact ⟨[], s, by simp, .nil s, hf⟩
    · obtain ⟨l, s', hl, hok, hn, hlt⟩ := hstep s hs hf
      obtain ⟨ls, s'', hls, hp, hf'⟩ := ih _ hlt (hI _ _ _ hs hok hn) rfl
      refine ⟨l :: ls, s'', fun x hx => ?_, .cons hok hn hp, hf'⟩
      rcases List.mem_cons.mp hx with rfl | hx
      · exact hl
      · exact hls x hx

/-! ## Counting steps -/

/-- The system with the number of its steps that meet `p`. -/
def tally (S : Sys σ lab) (p : σ → lab → σ → Prop) [∀ s l s', Decidable (p s l s')] :
    Sys (σ × Nat) lab where
  init x := S.init x.1 ∧ x.2 = 0
  next x l x' := S.next x.1 l x'.1 ∧ x'.2 = x.2 + if p x.1 l x'.1 then 1 else 0

section Tally

variable {p : σ → lab → σ → Prop} [∀ s l s', Decidable (p s l s')]

/-- A counted run is a run. -/
theorem Reach.of_tally (ok : σ → lab → Prop) {x : σ × Nat} (hx : (S.tally p).Reach (fun x l => ok x.1 l) x) :
    S.Reach ok x.1 := by
  induction hx with
  | init hi => exact .init hi.1
  | step _ hok hn ih => exact .step ih hok hn.1

/-- A run can be counted. -/
theorem Reach.tally {s : σ} (hs : S.Reach ok s) :
    ∃ n, (S.tally p).Reach (fun x l => ok x.1 l) (s, n) := by
  induction hs with
  | @init s hi => exact ⟨0, .init ⟨hi, rfl⟩⟩
  | @step s s' l _ hok hn ih =>
    obtain ⟨n, ih⟩ := ih
    exact ⟨n + if p s l s' then 1 else 0, .step (l := l) ih hok ⟨hn, rfl⟩⟩

end Tally

/-- The steps in which the last reference is dropped. -/
def Drops (refs : σ → Nat) (s : σ) (_ : lab) (s' : σ) : Prop := refs s = 1 ∧ refs s' = 0

instance (refs : σ → Nat) (s : σ) (l : lab) (s' : σ) : Decidable (Drops refs s l s') :=
  inferInstanceAs (Decidable (_ ∧ _))

/-- The last reference is dropped once, when none is left. -/
theorem tally_last (ok : σ → lab → Prop) {refs : σ → Nat} (h0 : ∀ s, S.init s → refs s ≠ 0)
    (hdown : ∀ s l s', S.Reach ok s → ok s l → S.next s l s' → refs s ≤ refs s' + 1)
    (hend : ∀ s l s', S.Reach ok s → ok s l → S.next s l s' → refs s = 0 → refs s' = 0)
    {x : σ × Nat} (hx : (S.tally (Drops refs)).Reach (fun x l => ok x.1 l) x) :
    x.2 = if refs x.1 = 0 then 1 else 0 := by
  induction hx with
  | init hi => rw [hi.2, if_neg (h0 _ hi.1)]
  | @step x x' l hr hok hn ih =>
    have hle := hdown _ _ _ (hr.of_tally ok) hok hn.1
    have hz := hend _ _ _ (hr.of_tally ok) hok hn.1
    rw [hn.2, ih]
    by_cases h : refs x.1 = 0
    · rw [if_pos h, if_pos (hz h), if_neg fun hc => by have := hc.1; omega]
    · by_cases h' : refs x'.1 = 0
      · rw [if_neg h, if_pos ⟨by omega, h'⟩, if_pos h']
      · rw [if_neg h, if_neg fun hc => h' hc.2, if_neg h']

end Sys

end AsyncLib
