import AsyncLib.Concurrent.TaskDeque
import AsyncLib.Lib.System

/-!
# `TaskDeque` under any interleaving: the program

`async/concurrent/task_deque.h` (and `async/coroutine/coroutine_task_deque.cpp`, the same code): the
owner runs `PushFront` and `PopFront` without a lock, any number of threads run `PushBack`,
`PopBack` and `PopBackHalf` under `mMutex`, and any thread runs `Size` and `Empty`, under
sequentially consistent interleaving of the single loads, compare-exchanges, stores and moves of
tasks.

* `Pc`: the control points. The two pushes, and the two pops, differ only in their end of the ring.
* `step leave`: one atomic step. The assertion of `CalculateSize` stops no run here: what the code
  computes without it goes on.
* `Log`: a record beside the program's state: the tasks pushed and popped, the stores to `mFront`,
  whether a task waited at every instant, and the answers of `Empty`.
-/

namespace AsyncLib

namespace TaskDeque

namespace Threads

open Sys

variable {τ : Type}

/-- A thread. -/
abbrev Tid := Nat

/-- The thread that runs the front operations. -/
def owner : Tid := 0

/-- The two ends of the deque. -/
inductive End where
  | front
  | back
  deriving DecidableEq, Repr

/-- The slot that a push at this end fills, from the loaded index: `front & kMask`, or
`(back - 1) & kMask`. -/
def End.pushSlot : End → Word → Fin kCapacity
  | .front, w => slot w
  | .back, w => slot (w - 1)

/-- The slot that a pop at this end empties. -/
def End.popSlot : End → Word → Fin kCapacity
  | .front, w => slot (w - 1)
  | .back, w => slot w

/-- The index that a push at this end stores. -/
def End.pushed : End → Word → Word
  | .front, w => w + kIncrement
  | .back, w => dec w

/-- The index that a pop at this end stores. -/
def End.popped : End → Word → Word
  | .front, w => dec w
  | .back, w => w + kIncrement

/-- `mFront` or `mBack`. -/
def End.index (d : TaskDeque τ) : End → Word
  | .front => d.mFront
  | .back => d.mBack

/-- A store to `mFront` or `mBack`. -/
def End.store (d : TaskDeque τ) : End → Word → TaskDeque τ
  | .front, w => { d with mFront := w }
  | .back, w => { d with mBack := w }

/-- A write to a slot. -/
def write (d : TaskDeque τ) (i : Fin kCapacity) (e : Elem τ) : TaskDeque τ :=
  { d with mArray := Function.update d.mArray i e }

/-- A call that a thread makes. -/
inductive Call (τ : Type) where
  | pushFront (task : τ)
  | popFront
  | pushBack (task : τ)
  | popBack
  | popBackHalf
  | size
  | empty
  deriving DecidableEq, Repr

/-- Who runs `SizeOrNotEmpty`: `Size`, `Empty`, the `Empty` at the head of `PopBack` and of
`PopBackHalf`, or the `Size` in `PopBackHalf`, which has loaded `back`. -/
inductive Probe where
  | size
  | empty
  | popBack
  | popBackHalf
  | half (back : Word)
  deriving DecidableEq, Repr

/-- When a call began: the instant, and the stores to `mFront` until then. -/
structure Since where
  time : Nat
  ups : Nat
  downs : Nat
  deriving DecidableEq, Repr

/-- What runs under `mMutex`. -/
inductive Section (τ : Type) where
  | pushBack (task : τ)
  | popBack
  | popBackHalf
  deriving DecidableEq, Repr

/-- The local variables of the loop of `PopBackHalf`. -/
structure Half (τ : Type) where
  back : Word
  mid : Word
  n : Nat
  start : Word
  result : List τ
  deriving DecidableEq, Repr

/-- Where a thread is. A push or a pop carries the index `w` that it has loaded. -/
inductive Pc (τ : Type) where
  | idle
  /-- `front = mFront.load()` of `SizeOrNotEmpty`. -/
  | sizeFront (k : Probe) (g : Since)
  /-- `back = mBack.load()`. -/
  | sizeBack (k : Probe) (g : Since) (front : Word)
  /-- `front1 = mFront.load()`, and the answer if `front == front1`. -/
  | sizeFront1 (k : Probe) (g : Since) (front back : Word)
  /-- `std::lock_guard<std::mutex> lock(mMutex)`. -/
  | lock (c : Section τ)
  /-- The end of the block of the `lock_guard`. -/
  | unlock
  /-- The load of the index. -/
  | pushLoad (e : End) (task : τ)
  /-- `s = e->state.load()`. -/
  | pushState (e : End) (task : τ) (w : Word)
  /-- `e->state.compare_exchange_strong(s, kBusy)`, `s` being `kEmpty`. -/
  | pushCas (e : End) (task : τ) (w : Word)
  /-- The store of the index. -/
  | pushIndex (e : End) (task : τ) (w : Word)
  /-- `e->task = std::move(task)`. -/
  | pushMove (e : End) (task : τ) (w : Word)
  /-- `e->state.store(kReady)`. -/
  | pushStore (e : End) (task : τ) (w : Word)
  /-- The load of the index. -/
  | popLoad (e : End)
  /-- `s = e->state.load()`. -/
  | popState (e : End) (w : Word)
  /-- `e->state.compare_exchange_strong(s, kBusy)`, `s` being `kReady`. -/
  | popCas (e : End) (w : Word)
  /-- `task = std::move(e->task)`. -/
  | popMove (e : End) (w : Word)
  /-- `e->state.store(kEmpty)`. -/
  | popStore (e : End) (w : Word) (task : τ)
  /-- The store of the index. -/
  | popIndex (e : End) (w : Word) (task : τ)
  /-- `back = mBack.load()` of `PopBackHalf`. -/
  | halfLoad
  /-- `s = e->state.load()`, and the assertion if `n != 0`. -/
  | halfState (h : Half τ)
  /-- `e->state.compare_exchange_strong(s, kBusy)`. -/
  | halfCas (h : Half τ)
  /-- `result->push_back(std::move(e->task))`. -/
  | halfMove (h : Half τ)
  /-- `e->state.store(kEmpty)`. -/
  | halfStore (h : Half τ)
  /-- `mBack.store(start + kIncrement)`. -/
  | halfIndex (h : Half τ)
  deriving DecidableEq, Repr

/-- An answer of `Empty`. -/
structure Answer where
  /-- When the call began. -/
  since : Since
  /-- When it ended. -/
  till : Since
  empty : Bool
  deriving DecidableEq, Repr

/-- The record of a run. -/
structure Log (τ : Type) where
  /-- The tasks whose push has stored `kReady`. -/
  pushed : List τ
  /-- The tasks that pops have returned. -/
  popped : List τ
  /-- The stores to `mFront` by `PushFront`. -/
  ups : Nat
  /-- The stores to `mFront` by `PopFront`. -/
  downs : Nat
  /-- Whether a completely pushed task waited unclaimed, at every instant. -/
  waits : List Bool
  /-- The answers of `Empty`. -/
  answers : List Answer
  deriving DecidableEq, Repr

/-- The deque, its lock, the threads and the record. -/
structure St (τ : Type) where
  d : TaskDeque τ
  mMutex : Option Tid
  pc : Tid → Pc τ
  log : Log τ

/-- Now. -/
def Log.now (g : Log τ) : Since := ⟨g.waits.length, g.ups, g.downs⟩

/-- Thread `t` moves to `pc`. -/
def St.goto (s : St τ) (t : Tid) (pc : Pc τ) : St τ := { s with pc := Function.update s.pc t pc }

/-- What thread `t` does after its operation at the end `e`: the back operations unlock. -/
def End.leave : End → Pc τ
  | .front => .idle
  | .back => .unlock

/-- The next round of the loop of `PopBackHalf`, or what follows the loop. -/
def Half.next (h : Half τ) : Pc τ :=
  if 0 ≤ (h.mid - h.back).toInt then .halfState h
  else if h.n ≠ 0 then .halfIndex h
  else .unlock

/-- `SizeOrNotEmpty` returns to its caller. -/
def Probe.ret (s : St τ) (t : Tid) (g : Since) (front back : Word) : Probe → St τ
  | .size => s.goto t .idle
  | .half back' =>
    -- an index distance over `kCapacity` counts as `kCapacity`
    let size := (calculateSize front back).getD kCapacity
    let mid := if size > 1 then back' + BitVec.ofNat 32 ((size - 1) / 2) else back'
    s.goto t (Half.next ⟨back', mid, 0, 0, []⟩)
  | k =>
    let empty := decide ((front ^^^ back) &&& kMask2 = 0)
    let s' := { s with log := { s.log with answers := s.log.answers ++
      [Answer.mk g s.log.now empty] } }
    match k with
    | .popBack => s'.goto t (if empty then .idle else .lock .popBack)
    | .popBackHalf => s'.goto t (if empty then .idle else .lock .popBackHalf)
    | _ => s'.goto t .idle

/-- The first control point under the lock. -/
def Section.entry : Section τ → Pc τ
  | .pushBack task => .pushLoad .back task
  | .popBack => .popLoad .back
  | .popBackHalf => .halfLoad

/-- The stores to `mFront` are counted. -/
def End.countPush (g : Log τ) : End → Log τ
  | .front => { g with ups := g.ups + 1 }
  | .back => g

/-- The log when a pop at that end has moved its pointer; only the front moves down. -/
def End.countPop (g : Log τ) : End → Log τ
  | .front => { g with downs := g.downs + 1 }
  | .back => g

/-- One step of thread `t`, but for the record of the instant. `leave` is what a task becomes by
being taken. -/
def move (leave : τ → τ) (s : St τ) (t : Tid) : Option (St τ) :=
  match s.pc t with
  | .idle => none
  | .sizeFront k g => some (s.goto t (.sizeBack k g s.d.mFront))
  | .sizeBack k g front => some (s.goto t (.sizeFront1 k g front s.d.mBack))
  | .sizeFront1 k g front back =>
    let front1 := s.d.mFront
    if front ≠ front1 then some (s.goto t (.sizeBack k g front1))
    else some (k.ret s t g front back)
  | .lock c =>
    match s.mMutex with
    | none => some { s.goto t c.entry with mMutex := some t }
    | some _ => none
  | .unlock => some { s.goto t .idle with mMutex := none }
  | .pushLoad e task => some (s.goto t (.pushState e task (e.index s.d)))
  | .pushState e task w =>
    if (s.d.mArray (e.pushSlot w)).state ≠ .kEmpty then some (s.goto t e.leave)
    else some (s.goto t (.pushCas e task w))
  | .pushCas e task w =>
    let x := s.d.mArray (e.pushSlot w)
    if x.state ≠ .kEmpty then some (s.goto t e.leave)
    else some { s.goto t (.pushIndex e task w) with
      d := write s.d (e.pushSlot w) ⟨.kBusy, x.task⟩ }
  | .pushIndex e task w =>
    some { s.goto t (.pushMove e task w) with
      d := e.store s.d (e.pushed w)
      log := e.countPush s.log }
  | .pushMove e task w =>
    let x := s.d.mArray (e.pushSlot w)
    some { s.goto t (.pushStore e task w) with
      d := write s.d (e.pushSlot w) ⟨x.state, task⟩ }
  | .pushStore e task w =>
    let x := s.d.mArray (e.pushSlot w)
    some { s.goto t e.leave with
      d := write s.d (e.pushSlot w) ⟨.kReady, x.task⟩
      log := { s.log with pushed := s.log.pushed ++ [task] } }
  | .popLoad e => some (s.goto t (.popState e (e.index s.d)))
  | .popState e w =>
    if (s.d.mArray (e.popSlot w)).state ≠ .kReady then some (s.goto t e.leave)
    else some (s.goto t (.popCas e w))
  | .popCas e w =>
    let x := s.d.mArray (e.popSlot w)
    if x.state ≠ .kReady then some (s.goto t e.leave)
    else some { s.goto t (.popMove e w) with d := write s.d (e.popSlot w) ⟨.kBusy, x.task⟩ }
  | .popMove e w =>
    let x := s.d.mArray (e.popSlot w)
    some { s.goto t (.popStore e w x.task) with
      d := write s.d (e.popSlot w) ⟨x.state, leave x.task⟩ }
  | .popStore e w task =>
    let x := s.d.mArray (e.popSlot w)
    some { s.goto t (.popIndex e w task) with d := write s.d (e.popSlot w) ⟨.kEmpty, x.task⟩ }
  | .popIndex e w task =>
    some { s.goto t e.leave with
      d := e.store s.d (e.popped w)
      log := { e.countPop s.log with popped := s.log.popped ++ [task] } }
  | .halfLoad => some (s.goto t (.sizeFront (.half s.d.mBack) s.log.now))
  | .halfState h =>
    if h.n = 0 then
      if (s.d.mArray (slot h.mid)).state ≠ .kReady then
        some (s.goto t (Half.next { h with mid := h.mid - 1 }))
      else some (s.goto t (.halfCas h))
    else some (s.goto t (.halfMove h))
  | .halfCas h =>
    let x := s.d.mArray (slot h.mid)
    if x.state ≠ .kReady then some (s.goto t (Half.next { h with mid := h.mid - 1 }))
    else some { s.goto t (.halfMove { h with start := h.mid }) with
      d := write s.d (slot h.mid) ⟨.kBusy, x.task⟩ }
  | .halfMove h =>
    let x := s.d.mArray (slot h.mid)
    some { s.goto t (.halfStore { h with result := h.result ++ [x.task] }) with
      d := write s.d (slot h.mid) ⟨x.state, leave x.task⟩ }
  | .halfStore h =>
    let x := s.d.mArray (slot h.mid)
    some { s.goto t (Half.next { h with mid := h.mid - 1, n := h.n + 1 }) with
      d := write s.d (slot h.mid) ⟨.kEmpty, x.task⟩ }
  | .halfIndex h =>
    some { s.goto t .unlock with
      d := { s.d with mBack := h.start + kIncrement }
      log := { s.log with popped := s.log.popped ++ h.result } }

/-- Who moves: an idle thread makes a call, or a thread takes its next step. -/
inductive Label (τ : Type) where
  | call (t : Tid) (c : Call τ)
  | move (t : Tid)
  deriving DecidableEq, Repr

/-- The first control point of a call of thread `t`. Only the owner uses the front. -/
def Call.entry (g : Log τ) (t : Tid) : Call τ → Option (Pc τ)
  | .pushFront task => if t = owner then some (.pushLoad .front task) else none
  | .popFront => if t = owner then some (.popLoad .front) else none
  | .pushBack task => some (.lock (.pushBack task))
  | .popBack => some (.sizeFront .popBack g.now)
  | .popBackHalf => some (.sizeFront .popBackHalf g.now)
  | .size => some (.sizeFront .size g.now)
  | .empty => some (.sizeFront .empty g.now)

/-- A step, but for the record of the instant. -/
def act (leave : τ → τ) (s : St τ) : Label τ → Option (St τ)
  | .call t c =>
    match s.pc t with
    | .idle => (c.entry s.log t).map (s.goto t)
    | _ => none
  | .move t => move leave s t

/-- The slots from the back up to `mid`. -/
def Half.slots (h : Half τ) : List (Fin kCapacity) :=
  (List.range ((h.mid - h.back).toNat + 1)).map fun k => slot (h.back + BitVec.ofNat 32 k)

/-- The slots that a `PopBackHalf` has claimed and not emptied: with its first exchange it owns all
slots from the back on. -/
def Pc.claimed : Pc τ → List (Fin kCapacity)
  | .halfState h => if h.n = 0 then [] else h.slots
  | .halfMove h | .halfStore h => h.slots
  | _ => []

/-- The slots that the `PopBackHalf` in progress has claimed. -/
def St.claimed (s : St τ) : List (Fin kCapacity) :=
  match s.mMutex with
  | none => []
  | some t => (s.pc t).claimed

/-- Some task has been pushed completely and no pop has claimed it. -/
def St.Waiting (s : St τ) : Prop := ∃ i, (s.d.mArray i).state = .kReady ∧ i ∉ s.claimed

instance (s : St τ) : Decidable s.Waiting := by unfold St.Waiting; infer_instance

/-- It is recorded whether a task waits. -/
def St.tick (s : St τ) : St τ :=
  { s with log := { s.log with waits := s.log.waits ++ [decide s.Waiting] } }

/-- One atomic step. -/
def step (leave : τ → τ) (s : St τ) (l : Label τ) : Option (St τ) := (act leave s l).map St.tick

/-- A fresh deque, no thread in a call. -/
def start [Inhabited τ] : St τ := ⟨fresh, none, fun _ => .idle, ⟨[], [], 0, 0, [false], []⟩⟩

/-- The runs of the owner and any number of other threads. -/
def sys [Inhabited τ] (leave : τ → τ) : Sys (St τ) (Label τ) := ofFun start (step leave)

end Threads

end TaskDeque

end AsyncLib
