import AsyncLib.Concurrent.EventCountState
import AsyncLib.Lib.System
import Mathlib.Logic.Function.Basic

/-!
# `EventCount` under any interleaving

`async/concurrent/event_count.h`: `n` threads, each with its own waiter, run `Prewait` followed by
`CancelWait` or `CommitWait`, while any number of threads call `Notify`, under sequentially
consistent interleaving of the single loads, stores and compare-exchanges, of the mutexes and of the
condition variables.

* `Pc`: where the thread of a waiter is. `NPc`: where a call of `Notify` is. `Notify` knows nothing
  of its caller, so a thread that waits and notifies is one of each; its runs are among these.
* `step`: one atomic step. A weak compare-exchange may fail, and a wait on a condition variable may
  end, without a reason (`weak`).
* `Log` is a record of the run beside the program's state: how often each waiter was pushed, what
  has become of its last push, the count of pushes at the last read of `mState` by each `Notify`, and
  the operations in the order in which they took effect.
* `Fresh`: no waiter was pushed `2^22` times since a `Notify` in progress last read `mState`.
-/

namespace AsyncLib

namespace EventCount

open Sys

/-- A thread with a waiter, and its waiter's index in `mWaiters`. -/
abbrev Tid := Nat

/-- A caller of `Notify`. -/
abbrev Nid := Nat

/-- `Waiter::state`. -/
inductive WaiterState where
  | kNotSignaled
  | kWaiting
  | kSignaled
  deriving DecidableEq, Repr

/-- Who holds a waiter's mutex. -/
inductive Owner where
  | park
  | unpark (m : Nid)
  deriving DecidableEq, Repr

/-- `EventCount::Waiter`, but for its condition variable. -/
structure Waiter where
  next : Word64
  mu : Option Owner
  epoch : Word64
  state : WaiterState

/-- Where the thread of a waiter is. -/
inductive Pc where
  | idle
  /-- `state = mState.load()` in `Prewait`. -/
  | prewaitLoad
  /-- The compare-exchange of `Prewait`. -/
  | prewaitCas (state : Word64)
  /-- `Prewait` has returned. -/
  | ready
  /-- `state = mState.load()` in `CancelWait`. -/
  | cancelLoad
  /-- The compare-exchange of `CancelWait`. -/
  | cancelCas (state : Word64)
  /-- `w->state = kNotSignaled` in `CommitWait`. -/
  | commitState
  /-- `state = mState.load()` in `CommitWait`. -/
  | commitLoad
  /-- `w->next.store(state & (kStackMask | kEpochMask))`. -/
  | commitNext (state : Word64)
  /-- The compare-exchange of `CommitWait`. -/
  | commitCas (state : Word64)
  /-- `w->epoch += kEpochInc`. -/
  | commitEpoch
  /-- The lock of `w->mu` in `Park`, at first or at the end of a wait. -/
  | parkLock
  /-- `w->state != kSignaled`. -/
  | parkCheck
  /-- `w->state = kWaiting`. -/
  | parkSet
  /-- `w->cv.wait(lock)`, which gives the mutex back. -/
  | parkWait
  /-- Blocked in the wait. -/
  | parked
  /-- The end of `Park`. -/
  | parkUnlock
  deriving DecidableEq, Repr

/-- Where a call of `Notify` is. -/
inductive NPc where
  | idle
  /-- `state = mState.load()`. -/
  | load (all : Bool)
  /-- `next = w->next.load()` of the waiter on top of the stack. -/
  | next (state : Word64)
  /-- The compare-exchange. -/
  | cas (all : Bool) (state newstate : Word64)
  /-- `w->next.store(kStackMask)`. -/
  | clear (w : Nat)
  /-- `wnext = w->next.load() & kStackMask` in `Unpark`. -/
  | unparkNext (w : Nat)
  /-- The lock of `w->mu` in `Unpark`. -/
  | unparkLock (w : Nat) (next : Option Nat)
  /-- `state = w->state`. -/
  | unparkState (w : Nat) (next : Option Nat)
  /-- `w->state = kSignaled`. -/
  | unparkSet (w : Nat) (next : Option Nat) (state : WaiterState)
  /-- The end of the lock's scope, and the comparison with `kWaiting`. -/
  | unparkUnlock (w : Nat) (next : Option Nat) (state : WaiterState)
  /-- `w->cv.notify_one()`. -/
  | unparkWake (w : Nat) (next : Option Nat)
  deriving DecidableEq, Repr

/-- What has become of the last push of a waiter. -/
inductive Role where
  /-- Its `CommitWait` is over, or it has not committed. -/
  | free
  /-- It has committed, and no `Notify` has popped it. -/
  | stacked
  /-- It was popped by `m`, which has not set its state. -/
  | held (m : Nid)
  /-- Its state was set to `kSignaled`. -/
  | signaled
  deriving DecidableEq, Repr

/-- An operation that has taken effect. -/
inductive Event where
  | prewait (t : Tid)
  | cancel (t : Tid)
  /-- A `CommitWait` that took a signal. -/
  | take (t : Tid)
  /-- A `CommitWait` that went on the stack. -/
  | park (t : Tid)
  /-- The end of a `CommitWait` that was on the stack. -/
  | wake (t : Tid)
  | notify (all : Bool)
  deriving DecidableEq, Repr

/-- The record of a run. -/
structure Log where
  /-- How often a waiter was pushed. -/
  pushes : Nat → Nat
  /-- What has become of the last push of a waiter. -/
  role : Nat → Role
  /-- The pushes of each waiter when a `Notify` last read `mState`. -/
  since : Nid → Nat → Nat
  /-- The operations, in the order in which they took effect. -/
  trace : List Event

/-- The event count, the threads and the record. -/
structure St where
  mState : Word64
  mWaiters : Nat → Waiter
  pc : Tid → Pc
  npc : Nid → NPc
  log : Log

/-- Thread `t` moves to `pc`. -/
def St.goto (s : St) (t : Tid) (pc : Pc) : St := { s with pc := Function.update s.pc t pc }

/-- The `Notify` of `m` moves to `pc`. -/
def St.ngoto (s : St) (m : Nid) (pc : NPc) : St := { s with npc := Function.update s.npc m pc }

/-- A write to waiter `w`. -/
def St.write (s : St) (w : Nat) (x : Waiter) : St :=
  { s with mWaiters := Function.update s.mWaiters w x }

/-- A write to `mState`. -/
def St.store (s : St) (state : Word64) : St := { s with mState := state }

/-- Waiter `w` gets the role `r`. -/
def St.become (s : St) (w : Nat) (r : Role) : St :=
  { s with log := { s.log with role := Function.update s.log.role w r } }

/-- The operation `e` takes effect. -/
def St.emit (s : St) (e : Event) : St := { s with log := { s.log with trace := s.log.trace ++ [e] } }

/-- A `Notify` has read `mState`. -/
def St.read (s : St) (m : Nid) : St :=
  { s with log := { s.log with since := Function.update s.log.since m s.log.pushes } }

/-- Where `CommitWait` goes on with the word `state`. -/
def commitWith (state : Word64) : Pc :=
  if state &&& kSignalMask ≠ 0 then .commitCas state else .commitNext state

/-- Where `Notify` goes on with the word `state`. -/
def notifyWith (all : Bool) (state : Word64) : NPc :=
  -- easy case: no waiters
  if topOf state = none ∧ waitersOf state = signalsOf state then .idle
  else if all then .cas true state (notifyAllWord state)
  else if signalsOf state < waitersOf state then .cas false state (signalWord state)
  else .next state

/-- The `Notify` of `m` goes on with `mState`, which it has read. -/
def St.notifyRead (s : St) (m : Nid) (all : Bool) : St :=
  if notifyWith all s.mState = .idle then ((s.read m).ngoto m .idle).emit (.notify all)
  else (s.read m).ngoto m (notifyWith all s.mState)

/-- The loop of `Unpark` goes on with `next`. -/
def unparkLoop : Option Nat → NPc
  | none => .idle
  | some w => .unparkNext w

/-- One step of thread `t`. -/
def move (s : St) (t : Tid) (weak : Bool) : Option St :=
  let W := s.mWaiters t
  match s.pc t with
  | .idle | .ready => none
  | .prewaitLoad => some (s.goto t (.prewaitCas s.mState))
  | .prewaitCas state =>
    if weak = false ∧ s.mState = state then
      some (((s.goto t .ready).store (prewaitWord state)).emit (.prewait t))
    else some (s.goto t (.prewaitCas s.mState))
  | .cancelLoad => some (s.goto t (.cancelCas s.mState))
  | .cancelCas state =>
    if weak = false ∧ s.mState = state then
      some (((s.goto t .idle).store (cancelWord state)).emit (.cancel t))
    else some (s.goto t (.cancelCas s.mState))
  | .commitState => some ((s.goto t .commitLoad).write t { W with state := .kNotSignaled })
  | .commitLoad => some (s.goto t (commitWith s.mState))
  | .commitNext state => some ((s.goto t (.commitCas state)).write t { W with next := linkOf state })
  | .commitCas state =>
    if weak = false ∧ s.mState = state then
      if state &&& kSignalMask ≠ 0 then
        some (((s.goto t .idle).store (takeWord state)).emit (.take t))
      else
        let s' := ((s.goto t .commitEpoch).store (pushWord state (meOf t W.epoch))).emit (.park t)
        some { s'.become t .stacked with
          log := { (s'.become t .stacked).log with
            pushes := Function.update s.log.pushes t (s.log.pushes t + 1) } }
    else some (s.goto t (commitWith s.mState))
  | .commitEpoch => some ((s.goto t .parkLock).write t { W with epoch := W.epoch + kEpochInc })
  | .parkLock =>
    if W.mu = none then some ((s.goto t .parkCheck).write t { W with mu := some .park }) else none
  | .parkCheck => some (s.goto t (if W.state ≠ .kSignaled then .parkSet else .parkUnlock))
  | .parkSet => some ((s.goto t .parkWait).write t { W with state := .kWaiting })
  | .parkWait => some ((s.goto t .parked).write t { W with mu := none })
  | .parked => if weak then some (s.goto t .parkLock) else none
  | .parkUnlock =>
    some ((((s.goto t .idle).write t { W with mu := none }).become t .free).emit (.wake t))

/-- One step of the `Notify` of `m`. -/
def notifyMove (s : St) (m : Nid) (weak : Bool) : Option St :=
  match s.npc m with
  | .idle => none
  | .load all => some (s.notifyRead m all)
  | .next state =>
    -- `&mWaiters[state & kStackMask]`
    let next := (s.mWaiters (stackOf state).toNat).next
    some (s.ngoto m (.cas false state (popWord state next)))
  | .cas all state newstate =>
    if weak = false ∧ s.mState = state then
      let s' := (s.store newstate).emit (.notify all)
      -- unblocked pre-wait thread
      if all = false ∧ signalsOf state < waitersOf state then some (s'.ngoto m .idle)
      else
        match topOf state with
        | none => some (s'.ngoto m .idle)
        | some w =>
          if all then
            let role := fun u => if s.log.role u = .stacked then .held m else s.log.role u
            some { s'.ngoto m (.unparkNext w) with log := { s'.log with role := role } }
          else some ((s'.ngoto m (.clear w)).become w (.held m))
    else some (s.notifyRead m all)
  | .clear w =>
    some ((s.ngoto m (.unparkNext w)).write w { s.mWaiters w with next := kStackMask })
  | .unparkNext w => some (s.ngoto m (.unparkLock w (topOf (s.mWaiters w).next)))
  | .unparkLock w next =>
    if (s.mWaiters w).mu = none then
      some ((s.ngoto m (.unparkState w next)).write w { s.mWaiters w with mu := some (.unpark m) })
    else none
  | .unparkState w next => some (s.ngoto m (.unparkSet w next (s.mWaiters w).state))
  | .unparkSet w next state =>
    some (((s.ngoto m (.unparkUnlock w next state)).write w
      { s.mWaiters w with state := .kSignaled }).become w .signaled)
  | .unparkUnlock w next state =>
    -- avoid notifying if it wasn't waiting
    let pc := if state = .kWaiting then .unparkWake w next else unparkLoop next
    some ((s.ngoto m pc).write w { s.mWaiters w with mu := none })
  | .unparkWake w next =>
    let s' := s.ngoto m (unparkLoop next)
    some (if s.pc w = .parked then s'.goto w .parkLock else s')

/-- Who moves: a thread makes a call, or takes its next step. -/
inductive Label where
  | prewait (t : Tid)
  | cancelWait (t : Tid)
  | commitWait (t : Tid)
  | notify (m : Nid) (all : Bool)
  | move (t : Tid) (weak : Bool)
  | notifyMove (m : Nid) (weak : Bool)
  deriving DecidableEq, Repr

/-- One atomic step of an event count with `n` waiters. -/
def step (n : Nat) (s : St) : Label → Option St
  | .prewait t => if t < n ∧ s.pc t = .idle then some (s.goto t .prewaitLoad) else none
  | .cancelWait t => if s.pc t = .ready then some (s.goto t .cancelLoad) else none
  | .commitWait t => if s.pc t = .ready then some (s.goto t .commitState) else none
  | .notify m all => if s.npc m = .idle then some (s.ngoto m (.load all)) else none
  | .move t weak => move s t weak
  | .notifyMove m weak => notifyMove s m weak

/-- A new event count; `next` of the waiters is value-initialised. -/
def start : St where
  mState := kStackMask
  mWaiters := fun _ => ⟨0, none, 0, .kNotSignaled⟩
  pc := fun _ => .idle
  npc := fun _ => .idle
  log := ⟨fun _ => 0, fun _ => .free, fun _ _ => 0, []⟩

/-- The runs of `n` waiters and any number of callers of `Notify`. -/
def sys (n : Nat) : Sys St Label := ofFun start (step n)

/-- The `Notify` is between a read of `mState` and its compare-exchange. -/
def NPc.attempt : NPc → Bool
  | .next _ | .cas _ _ _ => true
  | _ => false

/-- No waiter was pushed `2^22` times since a `Notify` in progress last read `mState`. -/
def Fresh (s : St) : Prop :=
  ∀ m w, (s.npc m).attempt = true → s.log.pushes w < s.log.since m w + 2 ^ kEpochBits

/-- The thread has finished `Prewait` and not completed its `CancelWait` or `CommitWait`. -/
def Pc.pre : Pc → Bool
  | .ready | .cancelLoad | .cancelCas _ | .commitState | .commitLoad | .commitNext _
  | .commitCas _ => true
  | _ => false

/-- The assertions that thread `t` meets at `pc`. -/
def Pc.asserts (t : Tid) (W : Waiter) : Pc → Bool
  | .prewaitCas state => checkState state false && checkState (prewaitWord state) false
  | .cancelCas state => checkState state true && checkState (cancelWord state) false
  | .commitState => W.epoch &&& ~~~kEpochMask == 0
  | .commitNext state => checkState state true
  | .commitCas state => checkState state true && checkState
      (if state &&& kSignalMask ≠ 0 then takeWord state else pushWord state (meOf t W.epoch)) false
  | _ => true

/-- The assertions that a `Notify` meets at `pc`. -/
def NPc.asserts : NPc → Bool
  | .next state => checkState state false
  | .cas _ state newstate => checkState state false && checkState newstate false
  | _ => true

/-- The assertions that any step would meet hold, also that on a word read from `mState`. -/
structure Asserts (s : St) : Prop where
  word : checkState s.mState false = true
  wait : ∀ t, (s.pc t).asserts t (s.mWaiters t) = true
  notify : ∀ m, (s.npc m).asserts = true

end EventCount

end AsyncLib
