import AsyncLib.Concurrent.WorkQueue
import AsyncLib.Lib.Modify

/-!
# The steps of the workers

What one step of a thread in the code of `WorkQueueBase` can do.

* `Pc.role`, `Pc.hands`, `Pc.Seen` and so on: what the point says about the event count, about the
  tasks, and about the queues that the thread has found empty.
* `Spins`: what the step does to the spinning state is a step of `Spinning`.
* `Moves`: the effect of `move`. `move_moves`: there is no other.
-/

namespace AsyncLib

namespace WorkQueue

open Sys Spinning

/-! ## What a point says -/

/-- How a thread stands to the event count. -/
inductive Role where
  | free
  | pre
  | blocked
  deriving DecidableEq, Repr

namespace Pc

/-- What the thread is in the event count at this place of the code. -/
def role : Pc → Role
  | .scan _ | .cancelWait _ | .addBlocked | .readDone | .doneBlocked | .commitWait | .cancelDone =>
    .pre
  | .parked => .blocked
  | _ => .free

/-- The tasks that the thread has and that are neither in a queue nor called. -/
def hands : Pc → List Nat
  | .spin _ (some x) | .stopLoad (some x) | .stopCas (some x) _ | .checkEmpty x | .pushFront _ x
  | .pushBack _ x | .enqueue _ _ x => [x]
  | _ => []

/-- Only a worker is there. -/
def Workers : Pc → Prop
  | .steal .quiesce _ | .run | .pushBack _ _ | .enqueue _ _ _ | .notifyLoad | .notifyCas _ | .notify
  | .allBlocked => False
  | _ => True

/-- The thread executes no task. -/
def Looking : Pc → Prop
  | .run | .checkEmpty _ | .pushFront _ _ | .pushBack _ _ | .enqueue _ _ _ | .notifyLoad
  | .notifyCas _ | .notify => False
  | _ => True

/-- In `Quiesce`. -/
def Quiesces : Pc → Prop
  | .steal .quiesce _ | .allBlocked => True
  | _ => False

/-- About to put a task into a queue. -/
def Pushes : Pc → Prop
  | .pushFront _ _ | .pushBack _ _ | .enqueue _ (_ :: _) _ => True
  | _ => False

/-- After `Prewait`, it has found the queue `j` empty, and it is not going to look again. -/
def Seen (j : Nat) : Pc → Prop
  | .scan victims => j ∉ victims
  | .addBlocked | .readDone | .doneBlocked | .commitWait | .parked => True
  | _ => False

/-- In the shutdown, it has found the queue `j` empty, and it is not going to look again. -/
def Past (j : Nat) : Pc → Prop
  | .rescan victims => j ∉ victims
  | .notifyDone | .returned => True
  | _ => False

/-- It has read `mDone`. -/
def Done : Pc → Prop
  | .doneBlocked | .cancelDone | .rescan _ | .notifyDone | .returned => True
  | _ => False

/-- It has submitted a task and may be going to notify a worker. -/
def Alarm : Pc → Prop
  | .notifyLoad | .notifyCas _ | .notify => True
  | _ => False

/-- Where a worker is in `Spinning`. -/
def spinPc : Pc → Spinning.Pc
  | .startLoad => .startLoad
  | .startCas spinning => .startCas spinning
  | .steal (.spin _) _ | .spin _ _ => .spinning
  | .stopLoad _ => .stopLoad
  | .stopCas _ spinning => .stopCas spinning
  | _ => .idle

/-- Where a submitting thread is in `Spinning`. -/
def notifyPc : Pc → NPc
  | .notifyLoad => .load
  | .notifyCas spinning => .cas spinning
  | _ => .idle

theorem Seen.role {pc : Pc} {j : Nat} (h : pc.Seen j) : pc.role ≠ .free := by
  cases pc <;> simp_all [Seen, Pc.role]

theorem workers_of_role {pc : Pc} (h : pc.role ≠ .free) : pc.Workers := by
  cases pc <;> trivial

theorem Past.done {pc : Pc} {j : Nat} (h : pc.Past j) : pc.Done := by
  cases pc <;> simp_all [Past, Done]

/-- A worker in the spin loop is going to look at every queue. -/
theorem not_seen_of_inLoop {pc : Pc} (h : pc.spinPc.inLoop = true) (j : Nat) : ¬ pc.Seen j := by
  cases pc <;> simp_all [spinPc, Spinning.Pc.inLoop, Seen]

end Pc

/-! ## The spinning state -/

section Spins

variable {n : Nat} {s : St} {t : Nat} {x y : Pc} {w : Word64}

/-- In `Spinning`, the thread `t` moves from `x` to `y` in one step, or in none, and leaves the word
`w`. -/
def Spins (n : Nat) (s : St) (t : Nat) (x y : Pc) (w : Word64) : Prop :=
  ∀ σ : Spinning.St, σ.mSpinningState = s.mSpinningState → σ.pc t = x.spinPc →
    σ.npc t = x.notifyPc → (x.Workers → t < n) →
    ∃ σ' : Spinning.St, (σ' = σ ∨ ∃ l, Spinning.step n σ l = some σ') ∧ σ'.mSpinningState = w ∧
      σ'.pc = Function.update σ.pc t y.spinPc ∧ σ'.npc = Function.update σ.npc t y.notifyPc

theorem Spins.refl (hspin : y.spinPc = x.spinPc) (hnotify : y.notifyPc = x.notifyPc) :
    Spins n s t x y s.mSpinningState := by
  intro σ hw hpc hn _
  exact ⟨σ, .inl rfl, hw, by rw [hspin, ← hpc, Function.update_eq_self],
    by rw [hnotify, ← hn, Function.update_eq_self]⟩

/-- A step of the worker `t`. -/
theorem Spins.worker (l : Spinning.Label) (hnotify : y.notifyPc = x.notifyPc)
    (h : ∀ σ : Spinning.St, σ.mSpinningState = s.mSpinningState → σ.pc t = x.spinPc →
      (x.Workers → t < n) → ∃ log, Spinning.step n σ l =
        some ⟨w, Function.update σ.pc t y.spinPc, σ.npc, log⟩) : Spins n s t x y w := by
  intro σ hw hpc hn ht
  obtain ⟨log, h⟩ := h σ hw hpc ht
  exact ⟨_, .inr ⟨l, h⟩, rfl, rfl, by rw [hnotify, ← hn, Function.update_eq_self]⟩

/-- A step of the submitting thread `t`. -/
theorem Spins.notify (l : Spinning.Label) (hspin : y.spinPc = x.spinPc)
    (h : ∀ σ : Spinning.St, σ.mSpinningState = s.mSpinningState → σ.npc t = x.notifyPc →
      ∃ log, Spinning.step n σ l =
        some ⟨w, σ.pc, Function.update σ.npc t y.notifyPc, log⟩) : Spins n s t x y w := by
  intro σ hw hpc hn _
  obtain ⟨log, h⟩ := h σ hw hn
  exact ⟨_, .inr ⟨l, h⟩, rfl, by rw [hspin, ← hpc, Function.update_eq_self], rfl⟩

theorem startWith_spinPc (w : Word64) :
    (startWith w).spinPc = Spinning.startWith w ∧ (startWith w).notifyPc = .idle := by
  unfold startWith Spinning.startWith
  split <;> exact ⟨rfl, rfl⟩

theorem notifyWith_notifyPc (w : Word64) :
    (notifyWith w).notifyPc = Spinning.notifyWith w ∧ (notifyWith w).spinPc = .idle := by
  unfold notifyWith Spinning.notifyWith
  simp only
  split <;> exact ⟨rfl, rfl⟩

theorem spins_start : Spins n s t .activeThreads .startLoad s.mSpinningState :=
  .worker (.start t false) rfl fun σ hw hpc ht => ⟨σ.log, by
    rw [Spinning.step, if_pos ⟨ht trivial, hpc⟩, ← hw]
    rfl⟩

theorem spins_startLoad :
    Spins n s t .startLoad (startWith s.mSpinningState) s.mSpinningState :=
  .worker (.move t true) (startWith_spinPc _).2 fun σ hw hpc _ => ⟨σ.log, by
    rw [Spinning.step, Spinning.move, hpc, (startWith_spinPc _).1, ← hw]
    rfl⟩

theorem spins_startFail (w : Word64) :
    Spins n s t (.startCas w) (startWith s.mSpinningState) s.mSpinningState :=
  .worker (.move t true) (startWith_spinPc _).2 fun σ hw hpc _ => ⟨σ.log, by
    rw [Spinning.step, Spinning.move, hpc, (startWith_spinPc _).1, ← hw]
    rfl⟩

theorem spins_startCas (i : Nat) : Spins n s t (.startCas s.mSpinningState) (.spin i none)
    (decode s.mSpinningState).started.encode :=
  .worker (.move t false) rfl fun σ hw hpc _ => ⟨σ.log, by
    rw [Spinning.step, Spinning.move, hpc]
    exact if_pos ⟨rfl, hw⟩⟩

theorem spins_stop (i : Nat) (task : Option Nat) :
    Spins n s t (.spin i task) (.stopLoad task) s.mSpinningState :=
  .worker (.stop t) rfl fun σ hw hpc _ => ⟨σ.log, by
    rw [Spinning.step, if_pos (show σ.pc t = .spinning from hpc), ← hw]
    rfl⟩

theorem spins_stopLoad (task : Option Nat) :
    Spins n s t (.stopLoad task) (.stopCas task s.mSpinningState) s.mSpinningState :=
  .worker (.move t true) rfl fun σ hw hpc _ => ⟨σ.log, by
    rw [Spinning.step, Spinning.move, hpc, ← hw]
    rfl⟩

theorem spins_stopFail (task : Option Nat) (w : Word64) :
    Spins n s t (.stopCas task w) (.stopCas task s.mSpinningState) s.mSpinningState :=
  .worker (.move t true) rfl fun σ hw hpc _ => ⟨σ.log, by
    rw [Spinning.step, Spinning.move, hpc, ← hw]
    rfl⟩

theorem spins_stopCas (task : Option Nat) (hspin : y.spinPc = .idle) (hnotify : y.notifyPc = .idle) :
    Spins n s t (.stopCas task s.mSpinningState) y (decode s.mSpinningState).stopped.encode :=
  .worker (.move t false) hnotify fun σ hw hpc _ => ⟨_, by
    rw [Spinning.step, Spinning.move, hpc, hspin]
    exact if_pos ⟨rfl, hw⟩⟩

/-- `IsNotifyParkedThreadRequired` is called. -/
theorem spins_notify (hspin : x.spinPc = .idle) (hnotify : x.notifyPc = .idle) :
    Spins n s t x .notifyLoad s.mSpinningState :=
  .notify (.notify t) hspin.symm fun σ hw hn => ⟨σ.log, by
    rw [Spinning.step, if_pos (hn.trans hnotify), ← hw]
    rfl⟩

theorem spins_notifyLoad :
    Spins n s t .notifyLoad (notifyWith s.mSpinningState) s.mSpinningState :=
  .notify (.notifyMove t true) (notifyWith_notifyPc _).2 fun σ hw hn => ⟨σ.log, by
    rw [Spinning.step, Spinning.notifyMove, hn, (notifyWith_notifyPc _).1, ← hw]
    rfl⟩

theorem spins_notifyFail (w : Word64) :
    Spins n s t (.notifyCas w) (notifyWith s.mSpinningState) s.mSpinningState :=
  .notify (.notifyMove t true) (notifyWith_notifyPc _).2 fun σ hw hn => ⟨σ.log, by
    rw [Spinning.step, Spinning.notifyMove, hn, (notifyWith_notifyPc _).1, ← hw]
    rfl⟩

theorem spins_notifyCas : Spins n s t (.notifyCas s.mSpinningState) .run
    (decode s.mSpinningState).skipped.encode :=
  .notify (.notifyMove t false) rfl fun σ hw hn => ⟨_, by
    rw [Spinning.step, Spinning.notifyMove, hn]
    exact if_pos ⟨rfl, hw⟩⟩

end Spins

/-! ## One step -/

/-- A move that makes no difference to the tasks that the thread executes. -/
structure Keeps (x y : Pc) : Prop where
  workers : y.Workers → x.Workers
  looking : y.Looking ↔ x.Looking
  quiesces : y.Quiesces → x.Quiesces

/-- A move of a thread that keeps what it says about the pool, but for the queues that it finds
empty. -/
structure Quiet (s : St) (x y : Pc) : Prop extends Keeps x y where
  hands : y.hands = x.hands
  role : y.role = x.role
  seen : ∀ j, y.Seen j → x.Seen j ∨ s.queues[j]? = some []
  past : ∀ j, y.Past j → x.Past j ∨ s.queues[j]? = some []
  done : y.Done → x.Done ∨ s.mDone = true
  alarm : x.Alarm → y.Alarm

/-- A point that says nothing about the pool. -/
structure Idle (pc : Pc) : Prop where
  role : pc.role = .free
  done : ¬ pc.Done
  alarm : ¬ pc.Alarm
  spin : pc.spinPc = .idle
  notify : pc.notifyPc = .idle

theorem Idle.not_seen {pc : Pc} (h : Idle pc) (j : Nat) : ¬ pc.Seen j := fun hs => hs.role h.role

theorem idle_run : Idle .run := ⟨rfl, id, id, rfl, rfl⟩

/-- What one step of the thread `t`, which is `th`, does in the pool's code. -/
inductive Moves (cfg : Config) (s : St) (t : Nat) (th : Thread) : St → Prop
  | quiet {pc : Pc} {b : UInt32} {w : Word64} : Quiet s th.pc pc →
      Spins cfg.mNumThreads s t th.pc pc w →
      Moves cfg s t th { s with
        mBlocked := b, mSpinningState := w, threads := s.threads.set t { th with pc } }
  /-- A task is popped and called. -/
  | exec {j x : Nat} {q rest : List Nat} : s.queues[j]? = some q → q.Perm (x :: rest) →
      th.pc.Looking → th.pc.hands = [] → (th.pc.Workers ∨ th.pc.Quiesces) → Idle th.pc →
      Moves cfg s t th { s with
        queues := s.queues.set j rest
        threads := s.threads.set t { th with pc := .run, stack := x :: th.stack }
        log := { s.log with called := x :: s.log.called } }
  /-- A task is popped in the spin loop. -/
  | hold {i j x : Nat} {q rest victims : List Nat} : s.queues[j]? = some q → q.Perm (x :: rest) →
      th.pc = .steal (.spin i) victims →
      Moves cfg s t th { s with
        queues := s.queues.set j rest
        threads := s.threads.set t { th with pc := .spin (i + 1) (some x) } }
  /-- It is called after the spin loop. -/
  | release {x : Nat} : th.pc = .stopCas (some x) s.mSpinningState →
      Moves cfg s t th { s with
        mSpinningState := (decode s.mSpinningState).stopped.encode
        threads := s.threads.set t { th with pc := .run, stack := x :: th.stack }
        log := { s.log with called := x :: s.log.called } }
  | push {j x : Nat} {q q' : List Nat} {pc : Pc} : s.queues[j]? = some q → q'.Perm (x :: q) →
      th.pc.hands = [x] → th.pc.Pushes → ¬ th.pc.Looking → Idle th.pc →
      (pc = .notifyLoad ∨ pc = .run ∧ th.pc.Workers) →
      Moves cfg s t th { s with
        queues := s.queues.set j q'
        log := { s.log with accepted := x :: s.log.accepted }
        threads := s.threads.set t { th with pc } }
  /-- A task is called by the thread that submits it. -/
  | inline {x : Nat} : th.pc.hands = [x] → ¬ th.pc.Looking → Idle th.pc →
      Moves cfg s t th { s with
        threads := s.threads.set t { th with pc := .run, stack := x :: th.stack }
        log := { s.log with
          called := x :: s.log.called
          accepted := if t < cfg.mNumThreads then x :: s.log.accepted else s.log.accepted } }
  | refuse {x : Nat} {q : Bool} : th.pc = .enqueue q [] x →
      Moves cfg s t th { s with
        threads := s.threads.set t { th with pc := .run }
        log := { s.log with refused := x :: s.log.refused } }
  /-- The notification of a worker is skipped. -/
  | skip : th.pc = .notifyCas s.mSpinningState →
      Moves cfg s t th { s with
        mSpinningState := (decode s.mSpinningState).skipped.encode
        threads := s.threads.set t { th with pc := .run } }
  | prewait {w : EventCount.Waiting} {r : UInt32} : th.pc = .prewait →
      s.mEventCount.Step cfg.takeover (.prewait t) w →
      Moves cfg s t th { s with
        mEventCount := w, threads := s.threads.set t { th with pc := .scan (cfg.emptyVictims r) } }
  | cancelWait {w : EventCount.Waiting} {victim : Nat} : th.pc = .cancelWait victim →
      s.mEventCount.Step cfg.takeover (.cancel t) w →
      Moves cfg s t th { s with
        mEventCount := w, threads := s.threads.set t { th with pc := .stealVictim victim } }
  | cancelDone {w : EventCount.Waiting} {r : UInt32} : th.pc = .cancelDone →
      s.mEventCount.Step cfg.takeover (.cancel t) w →
      Moves cfg s t th { s with
        mEventCount := w, threads := s.threads.set t { th with pc := .rescan (cfg.emptyVictims r) } }
  | take {w : EventCount.Waiting} : th.pc = .commitWait →
      s.mEventCount.Step cfg.takeover (.take t) w →
      Moves cfg s t th { s with
        mEventCount := w, threads := s.threads.set t { th with pc := .subBlocked } }
  | park {w : EventCount.Waiting} : th.pc = .commitWait →
      s.mEventCount.Step cfg.takeover (.park t) w →
      Moves cfg s t th { s with
        mEventCount := w, threads := s.threads.set t { th with pc := .parked } }
  | wake {w : EventCount.Waiting} : th.pc = .parked →
      s.mEventCount.Step cfg.takeover (.wake t) w →
      Moves cfg s t th { s with
        mEventCount := w, threads := s.threads.set t { th with pc := .subBlocked } }
  | notifyDone {w : EventCount.Waiting} : th.pc = .notifyDone →
      s.mEventCount.Step cfg.takeover (.notify true) w →
      Moves cfg s t th { s with
        mEventCount := w, threads := s.threads.set t { th with pc := .returned } }
  | notify {w : EventCount.Waiting} : th.pc = .notify →
      s.mEventCount.Step cfg.takeover (.notify false) w →
      Moves cfg s t th { s with
        mEventCount := w, threads := s.threads.set t { th with pc := .run } }
  /-- `Quiesce` returns. -/
  | leave : th.pc = .allBlocked →
      Moves cfg s t th { s with
        threads := s.threads.set t { th with pc := .run, quiescing := false } }

variable {cfg : Config} {s s' : St} {t : Nat} {th : Thread}

theorem pop_eq {take : List Nat → Option (Nat × List Nat)}
    (htake : ∀ q x rest, take q = some (x, rest) → q.Perm (x :: rest)) {j x : Nat} {ok : Bool}
    (h : s.pop take j ok = some (x, s')) : ∃ q rest, s.queues[j]? = some q ∧ q.Perm (x :: rest) ∧
      s' = { s with queues := s.queues.set j rest } := by
  obtain ⟨-, h⟩ := Option.ite_none_right_eq_some.mp h
  obtain ⟨⟨y, rest⟩, hp, he⟩ := Option.map_eq_some_iff.mp h
  obtain ⟨q, hq, htq⟩ := Option.bind_eq_some_iff.mp hp
  cases he
  exact ⟨q, rest, hq, htake q _ rest htq, rfl⟩

theorem popFront_perm (q : List Nat) (x : Nat) (rest : List Nat)
    (h : popFront q = some (x, rest)) : q.Perm (x :: rest) := by
  cases q with
  | nil => cases h
  | cons y q =>
    cases h
    exact .refl _

theorem popBack_perm (q : List Nat) (x : Nat) (rest : List Nat)
    (h : popBack q = some (x, rest)) : q.Perm (x :: rest) := by
  obtain ⟨y, hy, he⟩ := Option.map_eq_some_iff.mp h
  cases he
  obtain ⟨q', rfl⟩ := List.getLast?_eq_some_iff.mp hy
  rw [List.dropLast_concat]
  exact List.perm_append_singleton x q'

theorem nextTask_perm (cfg : Config) (q : List Nat) (x : Nat) (rest : List Nat)
    (h : cfg.nextTask q = some (x, rest)) : q.Perm (x :: rest) := by
  have hpop : cfg.nextTask = popFront ∨ cfg.nextTask = popBack := by
    unfold Config.nextTask
    cases cfg.derived with
    | nonBlockingWorkQueue => exact .inl rfl
    | blockingWorkQueue => exact .inr rfl
  rcases hpop with hpop | hpop <;> rw [hpop] at h
  · exact popFront_perm q x rest h
  · exact popBack_perm q x rest h

/-- An operation of the event count. -/
theorem event_eq {pick : Option Nat} {e : EventCount.Event} {f : St → St}
    (h : (s.event cfg pick e).map f = some s') :
    ∃ w, s.mEventCount.Step cfg.takeover e w ∧ s' = f { s with mEventCount := w } := by
  obtain ⟨s₁, h1, rfl⟩ := Option.map_eq_some_iff.mp h
  obtain ⟨w, hw, rfl⟩ := Option.map_eq_some_iff.mp h1
  exact ⟨w, EventCount.Waiting.apply_iff.mp ⟨pick, hw⟩, rfl⟩

theorem push_eq {put : List Nat → List Nat} {j x : Nat} {f : St → St}
    (h : (s.push put j x).map f = some s') : ∃ q, s.queues[j]? = some q ∧
      s' = f { s with
        queues := s.queues.set j (put q)
        log := { s.log with accepted := x :: s.log.accepted } } := by
  obtain ⟨s₁, h1, rfl⟩ := Option.map_eq_some_iff.mp h
  obtain ⟨q, hq, rfl⟩ := Option.map_eq_some_iff.mp h1
  exact ⟨q, hq, rfl⟩

theorem moves_goto {x pc : Pc} (hp : th.pc = x) (hq : Quiet s x pc)
    (hs : Spins cfg.mNumThreads s t x pc s.mSpinningState) : Moves cfg s t th (s.goto t th pc) :=
  .quiet (hp.symm ▸ hq) (hp.symm ▸ hs)

/-- A step that leaves the spinning state alone. -/
theorem moves_plain {x pc : Pc} (hp : th.pc = x) (hq : Quiet s x pc)
    (hspin : pc.spinPc = x.spinPc) (hnotify : pc.notifyPc = x.notifyPc) :
    Moves cfg s t th (s.goto t th pc) :=
  moves_goto hp hq (.refl hspin hnotify)

/-- A popped task is called. -/
theorem moves_exec {x : Pc} (hp : th.pc = x) {take : List Nat → Option (Nat × List Nat)}
    (htake : ∀ q y rest, take q = some (y, rest) → q.Perm (y :: rest)) {j y : Nat} {ok : Bool}
    {s₁ : St} (h : s.pop take j ok = some (y, s₁)) (hlook : x.Looking) (hhands : x.hands = [])
    (hhome : x.Workers ∨ x.Quiesces) (hidle : Idle x) : Moves cfg s t th (s₁.exec t th y) := by
  subst hp
  obtain ⟨q, rest, hq, hperm, rfl⟩ := pop_eq htake h
  exact .exec hq hperm hlook hhands hhome hidle

theorem moves_push {x pc : Pc} (hp : th.pc = x) {put : List Nat → List Nat} {j y : Nat}
    (hput : ∀ q, (put q).Perm (y :: q))
    (h : ((s.push put j y).map fun s => s.goto t th pc) = some s') (hhands : x.hands = [y])
    (hpush : x.Pushes) (hlook : ¬ x.Looking) (hidle : Idle x)
    (hpc : pc = .notifyLoad ∨ pc = .run ∧ x.Workers) : Moves cfg s t th s' := by
  subst hp
  obtain ⟨q, hq, rfl⟩ := push_eq h
  exact .push hq (hput q) hhands hpush hlook hidle hpc

theorem moves_inline {x : Pc} (hp : th.pc = x) {y : Nat} (hhands : x.hands = [y])
    (hlook : ¬ x.Looking) (hidle : Idle x) : Moves cfg s t th (s.inline cfg t th y) := by
  subst hp
  exact .inline hhands hlook hidle

theorem empty_eq {j : Nat} {ok : Bool} (h : s.empty j ok = true) : s.queues[j]? = some [] :=
  of_decide_eq_true (Bool.and_eq_true_iff.mp h).1

/-- A queue was found empty. -/
theorem quiet_scan {victim : Nat} {victims : List Nat} (h : s.queues[victim]? = some []) :
    Quiet s (.scan (victim :: victims)) (.scan victims) where
  workers := id
  looking := .rfl
  quiesces := id
  hands := rfl
  role := rfl
  seen j hj := by
    by_cases hv : j = victim
    · exact .inr (hv ▸ h)
    · exact .inl fun hm => by
        rcases List.mem_cons.mp hm with rfl | hm
        · exact hv rfl
        · exact hj hm
  past j hj := hj.elim
  done hd := hd.elim
  alarm := id

theorem quiet_rescan {victim : Nat} {victims : List Nat} (h : s.queues[victim]? = some []) :
    Quiet s (.rescan (victim :: victims)) (.rescan victims) where
  workers := id
  looking := .rfl
  quiesces := id
  hands := rfl
  role := rfl
  seen j hj := hj.elim
  past j hj := by
    by_cases hv : j = victim
    · exact .inr (hv ▸ h)
    · exact .inl fun hm => by
        rcases List.mem_cons.mp hm with rfl | hm
        · exact hv rfl
        · exact hj hm
  done hd := .inl hd
  alarm := id

theorem quiet_startWith {x : Pc} (hhands : x.hands = []) (hw : x.Workers) (hl : x.Looking)
    (hrole : x.role = .free) (halarm : ¬ x.Alarm) (w : Word64) : Quiet s x (startWith w) := by
  unfold startWith
  split <;> exact ⟨⟨fun _ => hw, iff_of_true trivial hl, fun h => h.elim⟩, hhands.symm, hrole.symm,
    fun j h => h.elim, fun j h => h.elim, fun h => h.elim, fun h => absurd h halarm⟩

theorem quiet_notifyWith {x : Pc} (hhands : x.hands = []) (hl : ¬ x.Looking) (hrole : x.role = .free)
    (w : Word64) : Quiet s x (notifyWith w) := by
  unfold notifyWith
  simp only
  split <;> exact ⟨⟨fun h => h.elim, iff_of_false id hl, fun h => h.elim⟩, hhands.symm, hrole.symm,
    fun j h => h.elim, fun j h => h.elim, fun h => h.elim, fun _ => trivial⟩

/-- There are no other steps. -/
theorem move_moves {c : Choice} (h : move cfg s t th c = some s') : Moves cfg s t th s' := by
  cases hp : th.pc with
  | nextTask =>
    simp only [move, hp] at h
    split at h
    · rename_i x s₁ hpop
      obtain rfl := Option.some.inj h
      exact moves_exec hp (nextTask_perm cfg) hpop trivial rfl (.inl trivial) ⟨rfl, id, id, rfl, rfl⟩
    · obtain rfl := Option.some.inj h
      exact moves_plain hp ⟨⟨fun _ => trivial, .rfl, id⟩, rfl, rfl, fun _ => .inl,
        fun _ => .inl, fun h => h.elim, id⟩ rfl rfl
  | steal site victims =>
    cases victims with
    | nil =>
      simp only [move, hp] at h
      obtain rfl := Option.some.inj h
      cases site <;> exact moves_plain hp ⟨⟨id, .rfl, id⟩, rfl, rfl, fun _ => .inl,
        fun _ => .inl, fun h => h.elim, id⟩ rfl rfl
    | cons victim victims =>
      simp only [move, hp] at h
      split at h
      · rename_i x s₁ hpop
        obtain rfl := Option.some.inj h
        cases site with
        | spin i =>
          obtain ⟨q, rest, hq, hperm, rfl⟩ := pop_eq popBack_perm hpop
          exact .hold hq hperm hp
        | first | extra =>
          exact moves_exec hp popBack_perm hpop trivial rfl (.inl trivial) ⟨rfl, id, id, rfl, rfl⟩
        | quiesce =>
          exact moves_exec hp popBack_perm hpop trivial rfl (.inr trivial) ⟨rfl, id, id, rfl, rfl⟩
      · obtain rfl := Option.some.inj h
        cases site <;> exact moves_plain hp ⟨⟨id, .rfl, id⟩, rfl, rfl, fun _ => .inl,
          fun _ => .inl, fun h => h.elim, id⟩ rfl rfl
  | activeThreads =>
    simp only [move, hp] at h
    split at h <;> obtain rfl := Option.some.inj h
    · exact moves_plain hp ⟨⟨id, .rfl, id⟩, rfl, rfl, fun _ => .inl, fun _ => .inl, .inl, id⟩ rfl rfl
    · exact moves_goto hp ⟨⟨id, .rfl, id⟩, rfl, rfl, fun _ => .inl, fun _ => .inl, .inl, id⟩
        spins_start
  | startLoad =>
    simp only [move, hp] at h
    obtain rfl := Option.some.inj h
    exact moves_goto hp (quiet_startWith (x := .startLoad) rfl trivial trivial rfl id _)
      spins_startLoad
  | startCas w =>
    simp only [move, hp] at h
    split at h
    · rename_i hc
      obtain ⟨-, rfl⟩ := hc
      obtain rfl := Option.some.inj h
      exact .quiet (hp.symm ▸ ⟨⟨id, .rfl, id⟩, rfl, rfl, fun _ => .inl, fun _ => .inl, .inl, id⟩)
        (hp.symm ▸ spins_startCas 0)
    · obtain rfl := Option.some.inj h
      exact moves_goto hp (quiet_startWith (x := .startCas w) rfl trivial trivial rfl id _)
        (spins_startFail w)
  | spin i task =>
    simp only [move, hp] at h
    split at h
    · rename_i hc
      obtain ⟨-, rfl⟩ := hc
      obtain rfl := Option.some.inj h
      exact moves_plain hp ⟨⟨id, .rfl, id⟩, rfl, rfl, fun _ => .inl, fun _ => .inl, .inl, id⟩ rfl rfl
    · obtain rfl := Option.some.inj h
      cases task <;>
        exact moves_goto hp ⟨⟨id, .rfl, id⟩, rfl, rfl, fun _ => .inl, fun _ => .inl, .inl, id⟩
          (spins_stop i _)
  | stopLoad task =>
    simp only [move, hp] at h
    obtain rfl := Option.some.inj h
    cases task <;>
      exact moves_goto hp ⟨⟨id, .rfl, id⟩, rfl, rfl, fun _ => .inl, fun _ => .inl, .inl, id⟩
        (spins_stopLoad _)
  | stopCas task w =>
    simp only [move, hp] at h
    split at h
    · rename_i hc
      obtain ⟨-, rfl⟩ := hc
      cases task with
      | some x =>
        obtain rfl := Option.some.inj h
        exact .release hp
      | none =>
        simp only at h
        split at h <;> obtain rfl := Option.some.inj h <;>
          exact .quiet (hp.symm ▸ ⟨⟨id, .rfl, fun h => h.elim⟩, rfl, rfl, fun _ => .inl,
            fun _ => .inl, .inl, id⟩) (hp.symm ▸ spins_stopCas none rfl rfl)
    · obtain rfl := Option.some.inj h
      cases task <;>
        exact moves_goto hp ⟨⟨id, .rfl, id⟩, rfl, rfl, fun _ => .inl, fun _ => .inl, .inl, id⟩
          (spins_stopFail _ w)
  | prewait =>
    simp only [move, hp] at h
    obtain ⟨w, hw, rfl⟩ := event_eq h
    exact .prewait hp hw
  | scan victims =>
    cases victims with
    | nil =>
      simp only [move, hp] at h
      obtain rfl := Option.some.inj h
      exact moves_plain hp ⟨⟨id, .rfl, id⟩, rfl, rfl, fun j _ => .inl List.not_mem_nil,
        fun _ => .inl, .inl, id⟩ rfl rfl
    | cons victim victims =>
      simp only [move, hp] at h
      split at h <;> obtain rfl := Option.some.inj h
      · rename_i he
        exact moves_plain hp (quiet_scan (empty_eq he)) rfl rfl
      · exact moves_plain hp ⟨⟨id, .rfl, id⟩, rfl, rfl, fun _ h => h.elim, fun _ => .inl,
          fun h => h.elim, id⟩ rfl rfl
  | cancelWait victim =>
    simp only [move, hp] at h
    obtain ⟨w, hw, rfl⟩ := event_eq h
    exact .cancelWait hp hw
  | stealVictim victim =>
    simp only [move, hp] at h
    split at h
    · rename_i x s₁ hpop
      obtain rfl := Option.some.inj h
      exact moves_exec hp popBack_perm hpop trivial rfl (.inl trivial) ⟨rfl, id, id, rfl, rfl⟩
    · obtain rfl := Option.some.inj h
      exact moves_plain hp ⟨⟨id, .rfl, id⟩, rfl, rfl, fun _ => .inl, fun _ => .inl, .inl, id⟩ rfl rfl
  | addBlocked =>
    simp only [move, hp] at h
    obtain rfl := Option.some.inj h
    exact .quiet (hp.symm ▸ ⟨⟨id, .rfl, id⟩, rfl, rfl, fun _ => .inl, fun _ => .inl, .inl, id⟩)
      (hp.symm ▸ .refl rfl rfl)
  | readDone =>
    simp only [move, hp] at h
    obtain rfl := Option.some.inj h
    cases hd : s.mDone with
    | true =>
      exact moves_plain hp ⟨⟨id, .rfl, id⟩, rfl, rfl, fun _ => .inl, fun _ => .inl,
        fun _ => .inr hd, id⟩ rfl rfl
    | false =>
      exact moves_plain hp ⟨⟨id, .rfl, id⟩, rfl, rfl, fun _ => .inl, fun _ => .inl, .inl, id⟩ rfl rfl
  | doneBlocked =>
    simp only [move, hp] at h
    split at h <;> obtain rfl := Option.some.inj h <;>
      exact moves_plain hp ⟨⟨id, .rfl, id⟩, rfl, rfl, fun _ _ => .inl trivial, fun _ => .inl,
        fun _ => .inl trivial, id⟩ rfl rfl
  | commitWait =>
    simp only [move, hp] at h
    split at h
    · obtain ⟨w, hw, rfl⟩ := event_eq h
      exact .take hp hw
    · obtain ⟨w, hw, rfl⟩ := event_eq h
      exact .park hp hw
  | parked =>
    simp only [move, hp] at h
    obtain ⟨w, hw, rfl⟩ := event_eq h
    exact .wake hp hw
  | subBlocked =>
    simp only [move, hp] at h
    obtain rfl := Option.some.inj h
    exact .quiet (hp.symm ▸ ⟨⟨id, .rfl, id⟩, rfl, rfl, fun _ => .inl, fun _ => .inl, .inl, id⟩)
      (hp.symm ▸ .refl rfl rfl)
  | cancelDone =>
    simp only [move, hp] at h
    obtain ⟨w, hw, rfl⟩ := event_eq h
    exact .cancelDone hp hw
  | rescan victims =>
    cases victims with
    | nil =>
      simp only [move, hp] at h
      obtain rfl := Option.some.inj h
      exact moves_plain hp ⟨⟨id, .rfl, id⟩, rfl, rfl, fun _ => .inl,
        fun _ _ => .inl List.not_mem_nil, .inl, id⟩ rfl rfl
    | cons victim victims =>
      simp only [move, hp] at h
      split at h <;> obtain rfl := Option.some.inj h
      · rename_i he
        exact moves_plain hp (quiet_rescan (empty_eq he)) rfl rfl
      · exact moves_plain hp ⟨⟨id, .rfl, id⟩, rfl, rfl, fun _ => .inl, fun _ h => h.elim,
          fun h => h.elim, id⟩ rfl rfl
  | notifyDone =>
    simp only [move, hp] at h
    obtain ⟨w, hw, rfl⟩ := event_eq h
    exact .notifyDone hp hw
  | checkEmpty x =>
    simp only [move, hp] at h
    obtain rfl := Option.some.inj h
    exact moves_plain hp ⟨⟨id, .rfl, id⟩, rfl, rfl, fun _ => .inl, fun _ => .inl, .inl, id⟩ rfl rfl
  | pushFront skipNotify x =>
    simp only [move, hp] at h
    split at h
    · refine moves_push hp (fun q => .refl _) h rfl trivial id ⟨rfl, id, id, rfl, rfl⟩ ?_
      cases skipNotify with
      | true => exact .inr ⟨rfl, trivial⟩
      | false => exact .inl rfl
    · obtain rfl := Option.some.inj h
      exact moves_inline hp rfl id ⟨rfl, id, id, rfl, rfl⟩
  | pushBack victim x =>
    simp only [move, hp] at h
    split at h
    · exact moves_push hp (fun q => List.perm_append_singleton x q) h rfl trivial id
        ⟨rfl, id, id, rfl, rfl⟩ (.inl rfl)
    · obtain rfl := Option.some.inj h
      exact moves_inline hp rfl id ⟨rfl, id, id, rfl, rfl⟩
  | enqueue isQuiescing victims x =>
    cases victims with
    | nil =>
      simp only [move, hp] at h
      split at h <;> obtain rfl := Option.some.inj h
      · exact moves_inline hp rfl id ⟨rfl, id, id, rfl, rfl⟩
      · exact .refuse hp
    | cons victim victims =>
      simp only [move, hp] at h
      split at h
      · exact moves_push hp (fun q => .refl _) h rfl trivial id ⟨rfl, id, id, rfl, rfl⟩ (.inl rfl)
      · obtain rfl := Option.some.inj h
        exact moves_plain hp ⟨⟨id, .rfl, id⟩, rfl, rfl, fun _ => .inl, fun _ => .inl, .inl, id⟩ rfl
          rfl
  | notifyLoad =>
    simp only [move, hp] at h
    obtain rfl := Option.some.inj h
    exact moves_goto hp (quiet_notifyWith (x := .notifyLoad) rfl id rfl _) spins_notifyLoad
  | notifyCas w =>
    simp only [move, hp] at h
    split at h
    · rename_i hc
      obtain ⟨-, rfl⟩ := hc
      obtain rfl := Option.some.inj h
      exact .skip hp
    · obtain rfl := Option.some.inj h
      exact moves_goto hp (quiet_notifyWith (x := .notifyCas w) rfl id rfl _)
        (spins_notifyFail w)
  | notify =>
    simp only [move, hp] at h
    obtain ⟨w, hw, rfl⟩ := event_eq h
    exact .notify hp hw
  | allBlocked =>
    simp only [move, hp] at h
    obtain ⟨-, h⟩ := Option.ite_none_right_eq_some.mp h
    obtain rfl := Option.some.inj h
    exact .leave hp
  | run => simp [move, hp] at h
  | returned => simp [move, hp] at h

/-! ## The other steps -/

theorem submit_hands (cfg : Config) (t : Nat) (q : Bool) (r : UInt32) (x : Nat) :
    (submit cfg t q r x).hands = [x] := by
  unfold submit
  split
  · split <;> rfl
  · rfl

theorem idle_submit (cfg : Config) (t : Nat) (q : Bool) (r : UInt32) (x : Nat) :
    Idle (submit cfg t q r x) := by
  unfold submit
  split
  · split <;> exact ⟨rfl, id, id, rfl, rfl⟩
  · exact ⟨rfl, id, id, rfl, rfl⟩

theorem idle_resume (cfg : Config) (t : Nat) (quiescing : Bool) (r : UInt32) (rest : List Nat) :
    Idle (resume cfg t quiescing r rest) ∧ (resume cfg t quiescing r rest).hands = [] := by
  unfold resume
  repeat' split
  all_goals exact ⟨⟨rfl, id, id, rfl, rfl⟩, rfl⟩

/-- What a step of the system does. -/
inductive Steps (cfg : Config) (s : St) : Label → St → Prop
  | move {t : Nat} {c : Choice} {th : Thread} {s' : St} : s.threads[t]? = some th →
      Moves cfg s t th s' → Steps cfg s (.move t c) s'
  | addTask {t : Nat} {q : Bool} {c : Choice} {th : Thread} : s.threads[t]? = some th →
      th.pc = .run →
      Steps cfg s (.addTask t q c) { s with
        threads := s.threads.set t { th with pc := submit cfg t q c.r s.log.submitted }
        log := { s.log with submitted := s.log.submitted + 1 } }
  | finish {t : Nat} {c : Choice} {th : Thread} {x : Nat} {rest : List Nat} :
      s.threads[t]? = some th → th.pc = .run → th.stack = x :: rest →
      Steps cfg s (.finish t c) { s with
        threads := s.threads.set t ⟨resume cfg t th.quiescing c.r rest, rest, th.quiescing⟩
        log := { s.log with finished := x :: s.log.finished } }
  | quiesce {t : Nat} {c : Choice} {th : Thread} : s.threads[t]? = some th → th.pc = .run →
      th.stack = [] →
      Steps cfg s (.quiesce t c) { s with
        threads := s.threads.set t ⟨.steal .quiesce (cfg.stealVictims c.r), [], true⟩ }
  | destroy : Steps cfg s .destroy { s with mDone := true, destructor := .notify }
  | notifyAll {c : Choice} {w : EventCount.Waiting} :
      s.mEventCount.Step cfg.takeover (.notify true) w →
      Steps cfg s (.notifyAll c) { s with mEventCount := w, destructor := .join }

theorem step_steps {l : Label} (h : step cfg s l = some s') : Steps cfg s l s' := by
  cases l with
  | move t c =>
    obtain ⟨th, ht, h⟩ := Option.bind_eq_some_iff.mp h
    exact .move ht (move_moves h)
  | addTask t q c =>
    obtain ⟨th, ht, h⟩ := Option.bind_eq_some_iff.mp h
    obtain ⟨hp, h⟩ := Option.ite_none_right_eq_some.mp h
    obtain rfl := Option.some.inj h
    exact .addTask ht hp
  | finish t c =>
    obtain ⟨th, ht, h⟩ := Option.bind_eq_some_iff.mp h
    obtain ⟨hp, h⟩ := Option.ite_none_right_eq_some.mp h
    split at h
    · rename_i x rest hst
      obtain rfl := Option.some.inj h
      exact .finish ht hp hst
    · cases h
  | quiesce t c =>
    obtain ⟨th, ht, h⟩ := Option.bind_eq_some_iff.mp h
    obtain ⟨⟨hp, hst⟩, h⟩ := Option.ite_none_right_eq_some.mp h
    obtain rfl := Option.some.inj h
    exact .quiesce ht hp hst
  | destroy =>
    obtain ⟨-, h⟩ := Option.ite_none_right_eq_some.mp h
    obtain rfl := Option.some.inj h
    exact .destroy
  | notifyAll c =>
    obtain ⟨-, h⟩ := Option.ite_none_right_eq_some.mp h
    obtain ⟨w, hw, rfl⟩ := event_eq h
    exact .notifyAll hw

end WorkQueue

end AsyncLib
