import AsyncLib.Lib.System

/-!
# Traces and backward simulation

An abstract system says what a component is for: its labels are operations that take effect. The
concrete system records the operations of a run in a trace. Where the abstract system decides early
what the concrete one decides late, a forward simulation does not exist; a backward simulation does:
every abstract state that fits the concrete one after a step has a predecessor that fits before it.

* `Sys.Trace A es a`: some run of `A` with the labels `es` ends in `a`.
* `Reach.backward`: the rule of backward simulation, with an invariant of the concrete system.
-/

namespace AsyncLib

namespace Sys

variable {σ lab α ev : Type}

/-- Some run with the labels `es` ends in the state. -/
inductive Trace (A : Sys α ev) : List ev → α → Prop
  | nil {a : α} : A.init a → Trace A [] a
  | snoc {es : List ev} {e : ev} {a a' : α} : Trace A es a → A.next a e a' → Trace A (es ++ [e]) a'

namespace Trace

variable {A : Sys α ev} {es : List ev} {e : ev} {a : α}

theorem of_nil (h : A.Trace [] a) : A.init a := by
  generalize he : ([] : List ev) = es at h
  cases h with
  | nil hi => exact hi
  | snoc => simp at he

theorem of_snoc (es : List ev) (h : A.Trace (es ++ [e]) a) : ∃ a₀, A.Trace es a₀ ∧ A.next a₀ e a := by
  generalize he : es ++ [e] = es' at h
  cases h with
  | nil => simp at he
  | snoc ht hn =>
    obtain ⟨rfl, h2⟩ := List.append_inj' he rfl
    cases h2
    exact ⟨_, ht, hn⟩

end Trace

variable {S : Sys σ lab} {ok : σ → lab → Prop}

/-- The rule of backward simulation. `R` relates concrete and abstract states, `J` is an invariant
of the concrete system. -/
theorem Reach.backward {A : Sys α ev} (trace : σ → List ev) (R : σ → α → Prop) {J : σ → Prop}
    (hJ : ∀ s, S.Reach ok s → J s)
    (h0 : ∀ s, S.init s → trace s = [] ∧ ∀ a, R s a → A.init a)
    (hstep : ∀ s l s', J s → ok s l → S.next s l s' →
      (trace s' = trace s ∧ ∀ a, R s' a → R s a) ∨
        ∃ e, trace s' = trace s ++ [e] ∧ ∀ a', R s' a' → ∃ a, R s a ∧ A.next a e a')
    {s : σ} (hs : S.Reach ok s) : ∀ a, R s a → A.Trace (trace s) a := by
  induction hs with
  | init hi =>
    intro a ha
    rw [(h0 _ hi).1]
    exact .nil ((h0 _ hi).2 a ha)
  | step hr hok hn ih =>
    intro a ha
    obtain ⟨ht, hb⟩ | ⟨e, ht, hb⟩ := hstep _ _ _ (hJ _ hr) hok hn
    · rw [ht]
      exact ih a (hb a ha)
    · obtain ⟨a₀, h1, h2⟩ := hb a ha
      rw [ht]
      exact .snoc (ih a₀ h1) h2

end Sys

end AsyncLib
