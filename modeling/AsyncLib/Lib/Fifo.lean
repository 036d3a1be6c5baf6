import Mathlib.Data.List.Basic
import Mathlib.Algebra.GroupWithZero.Nat
import Mathlib.Algebra.Group.Int.Defs

/-!
# Bounded FIFO queues

The abstract queue behind a ring buffer: a list of at most `cap` items, a push at one end that
gives the item back when the list is full, a pop at the other end that gives nothing when it is
empty. The state also counts the successful pushes and pops: these are the tickets that a ring
buffer's front and back indices hand out.

* `Fifo.next`/`Fifo.ret`: one call; `Fifo.rets`: the answers of a sequence of calls.
* `Fifo.Avoids bad`: no call of the sequence is made in a state where it is `bad`.
* `Fifo.Ok`: the counts and the list agree. It holds of every state reached from `Fifo.empty`.
-/

namespace AsyncLib

/-- A call on a queue. -/
inductive QueueCall (τ : Type) where
  | push (task : τ)
  | pop
  deriving DecidableEq, Repr

/-- A queue: the items, oldest first, and the numbers of successful pushes and pops. -/
structure Fifo (τ : Type) where
  items : List τ
  pushed : Nat
  popped : Nat

namespace Fifo

variable {τ : Type}

/-- The fresh queue. -/
def empty : Fifo τ := ⟨[], 0, 0⟩

/-- The answer of a call: a push gives its item back when `cap` items are queued, a pop gives the
oldest item. -/
def ret (cap : Nat) (s : Fifo τ) : QueueCall τ → Option τ
  | .push task => if s.items.length = cap then some task else none
  | .pop => s.items.head?

/-- The queue after a call. -/
def next (cap : Nat) (s : Fifo τ) : QueueCall τ → Fifo τ
  | .push task =>
    if s.items.length = cap then s
    else { s with items := s.items ++ [task], pushed := s.pushed + 1 }
  | .pop =>
    match s.items with
    | [] => s
    | _ :: rest => { s with items := rest, popped := s.popped + 1 }

/-- The answers of the calls `cs`, one after another. -/
def rets (cap : Nat) : Fifo τ → List (QueueCall τ) → List (Option τ)
  | _, [] => []
  | s, c :: cs => s.ret cap c :: rets cap (s.next cap c) cs

/-- The queue after the calls `cs`. -/
def run (cap : Nat) (s : Fifo τ) (cs : List (QueueCall τ)) : Fifo τ := cs.foldl (next cap) s

/-- No call of `cs` is made in a state in which it is `bad`. -/
def Avoids (cap : Nat) (bad : Fifo τ → QueueCall τ → Prop) : Fifo τ → List (QueueCall τ) → Prop
  | _, [] => True
  | s, c :: cs => ¬ bad s c ∧ Avoids cap bad (s.next cap c) cs

/-- The counts and the list agree, and the list is not too long. -/
structure Ok (cap : Nat) (s : Fifo τ) : Prop where
  pushed : s.pushed = s.popped + s.items.length
  le : s.items.length ≤ cap

theorem empty_ok (cap : Nat) : (empty : Fifo τ).Ok cap := ⟨rfl, Nat.zero_le _⟩

theorem Ok.next {cap : Nat} {s : Fifo τ} (h : s.Ok cap) (c : QueueCall τ) :
    (s.next cap c).Ok cap := by
  obtain ⟨hp, hl⟩ := h
  cases c with
  | push task =>
    by_cases hf : s.items.length = cap
    · simpa only [Fifo.next, hf, ↓reduceIte] using (⟨hp, hl⟩ : s.Ok cap)
    · simp only [Fifo.next, hf, ↓reduceIte]
      exact ⟨by simp only [List.length_append, List.length_singleton]; omega,
        by simp only [List.length_append, List.length_singleton]; omega⟩
  | pop =>
    cases hi : s.items with
    | nil => simpa only [Fifo.next, hi] using ⟨hp, hl⟩
    | cons x rest =>
      rw [hi, List.length_cons] at hp hl
      simp only [Fifo.next, hi]
      exact ⟨by simp only; omega, by simp only; omega⟩

theorem avoids_append {cap : Nat} {bad : Fifo τ → QueueCall τ → Prop} {s : Fifo τ}
    {cs ds : List (QueueCall τ)} :
    Avoids cap bad s (cs ++ ds) ↔ Avoids cap bad s cs ∧ Avoids cap bad (s.run cap cs) ds := by
  induction cs generalizing s with
  | nil => simp [Avoids, run]
  | cons c cs ih => simp [Avoids, run, ih, and_assoc]

/-- `n` rounds of a push and a pop of the fresh queue use up `n` tickets on either side. -/
theorem run_rounds {cap : Nat} (hcap : 0 < cap) (task : τ) (n : Nat) :
    (empty : Fifo τ).run cap (List.replicate n [.push task, .pop]).flatten = ⟨[], n, n⟩ := by
  suffices h : ∀ k, (⟨[], k, k⟩ : Fifo τ).run cap
      (List.replicate n [.push task, .pop]).flatten = ⟨[], k + n, k + n⟩ by
    simpa [empty] using h 0
  induction n with
  | zero => intro k; simp [run]
  | succ n ih =>
    intro k
    have hne : (0 : Nat) ≠ cap := Nat.ne_of_lt hcap
    rw [List.replicate_succ, List.flatten_cons]
    have := ih (k + 1)
    simp only [run, List.foldl_append, List.foldl_cons, List.foldl_nil, next, List.length_nil, hne,
      ↓reduceIte, List.nil_append] at this ⊢
    rw [this, Nat.add_assoc, Nat.add_comm 1 n]

end Fifo

end AsyncLib
