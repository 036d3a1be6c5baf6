import Mathlib.Data.List.Basic
import Mathlib.Logic.Function.Basic
import Mathlib.Algebra.GroupWithZero.Nat
import Mathlib.Algebra.Group.Int.Defs

/-!
# Bounded double-ended queues

The abstract queue behind a ring with two ends: a list of at most `cap` tasks, the one nearest the
back first.

* `DequeCall`, `DequeRet`: a call and its answer.
* `Deque.ret`/`Deque.next`: one call on a list; `Deque.rets`: the answers of a sequence of calls.
* `LevelCall`, `Levels`: one such list for each level; a push names its level, a pop takes from the
  first level that is not empty.
-/

namespace AsyncLib

/-- A call on a double-ended queue. -/
inductive DequeCall (τ : Type) where
  | pushFront (task : τ)
  | popFront
  | pushBack (task : τ)
  | popBack
  | popBackHalf
  | size
  | empty
  | flush
  deriving DecidableEq, Repr

/-- The answer of a call: the task that a push gives back or a pop takes, the number of tasks that
half a queue is and the tasks in the order in which they are taken, a size, an emptiness, or
nothing. -/
inductive DequeRet (τ : Type) where
  | task (task : Option τ)
  | half (n : Nat) (tasks : List τ)
  | size (n : Nat)
  | empty (b : Bool)
  | flushed
  deriving DecidableEq, Repr

namespace Deque

variable {τ : Type}

/-- The answer of a call on the list `l`. -/
def ret (cap : Nat) (l : List τ) : DequeCall τ → DequeRet τ
  | .pushFront task | .pushBack task => .task (if l.length = cap then some task else none)
  | .popFront => .task l.getLast?
  | .popBack => .task l.head?
  | .popBackHalf => .half ((l.length + 1) / 2) (l.take ((l.length + 1) / 2)).reverse
  | .size => .size l.length
  | .empty => .empty l.isEmpty
  | .flush => .flushed

/-- The list after a call on the list `l`. -/
def next (cap : Nat) (l : List τ) : DequeCall τ → List τ
  | .pushFront task => if l.length = cap then l else l ++ [task]
  | .pushBack task => if l.length = cap then l else task :: l
  | .popFront => l.dropLast
  | .popBack => l.tail
  | .popBackHalf => l.drop ((l.length + 1) / 2)
  | .size | .empty => l
  | .flush => []

/-- The answers of the calls `cs`, one after another. -/
def rets (cap : Nat) : List τ → List (DequeCall τ) → List (DequeRet τ)
  | _, [] => []
  | l, c :: cs => ret cap l c :: rets cap (next cap l c) cs

end Deque

/-- A call on a family of double-ended queues, one for each level. -/
inductive LevelCall (π τ : Type) where
  | pushFront (task : τ) (p : π)
  | popFront
  | pushBack (task : τ) (p : π)
  | popBack
  | size
  | empty
  | flush
  deriving DecidableEq, Repr

namespace Levels

variable {π τ : Type}

/-- The first level in `order` that is not empty. -/
def top (order : List π) (ls : π → List τ) : Option π := order.find? fun p => !(ls p).isEmpty

/-- The answer of a call on the lists `ls`, each of at most `cap` tasks, the back first. -/
def ret (cap : Nat) (order : List π) (ls : π → List τ) : LevelCall π τ → DequeRet τ
  | .pushFront task p | .pushBack task p => .task (if (ls p).length = cap then some task else none)
  | .popFront => .task ((top order ls).bind fun p => (ls p).getLast?)
  | .popBack => .task ((top order ls).bind fun p => (ls p).head?)
  | .size => .size (order.map fun p => (ls p).length).sum
  | .empty => .empty (order.all fun p => (ls p).isEmpty)
  | .flush => .flushed

/-- The lists after a call. -/
def next [DecidableEq π] (cap : Nat) (order : List π) (ls : π → List τ) :
    LevelCall π τ → π → List τ
  | .pushFront task p =>
    if (ls p).length = cap then ls else Function.update ls p (ls p ++ [task])
  | .pushBack task p =>
    if (ls p).length = cap then ls else Function.update ls p (task :: ls p)
  | .popFront => (top order ls).elim ls fun p => Function.update ls p (ls p).dropLast
  | .popBack => (top order ls).elim ls fun p => Function.update ls p (ls p).tail
  | .size | .empty => ls
  | .flush => fun _ => []

/-- The call works on level `p`: it pushes there, `p` is the level that it pops from, or it empties
`p`. -/
def Works (order : List π) (ls : π → List τ) (p : π) : LevelCall π τ → Prop
  | .pushFront _ p' | .pushBack _ p' => p' = p
  | .popFront | .popBack => top order ls = some p
  | .size | .empty => False
  | .flush => ls p ≠ []

/-- The answers of the calls `cs`, one after another. -/
def rets [DecidableEq π] (cap : Nat) (order : List π) :
    (π → List τ) → List (LevelCall π τ) → List (DequeRet τ)
  | _, [] => []
  | ls, c :: cs => ret cap order ls c :: rets cap order (next cap order ls c) cs

/-- The lists after the calls `cs`. -/
def run [DecidableEq π] (cap : Nat) (order : List π) (ls : π → List τ)
    (cs : List (LevelCall π τ)) : π → List τ :=
  cs.foldl (next cap order) ls

end Levels

end AsyncLib
