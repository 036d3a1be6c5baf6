import AsyncLib.Concurrent.EventCount
import AsyncLib.Lib.Count
import AsyncLib.Lib.Linked

/-!
# The invariant of `EventCount`

* `WaiterOk`: what is known of one thread and its waiter. It reads nothing of the other threads.
* `Stack`: the links from `mState` visit the waiters that committed and were not popped, and each
  link carries the number of pushes of the waiter it points to.
* `NotifierOk`: what is known of one call of `Notify`: the word in hand, the waiters that it has
  popped and not yet signalled, the mutex that it holds.
* `Inv`: all of it, for all threads. A step of a thread changes its own waiter only, so `Inv` is kept
  when the thread's own part and the word are (`Inv.wait_step`).
-/

namespace AsyncLib

namespace EventCount

open Sys

/-- A word that was read from `mState`. -/
structure WordOk (n : Nat) (w : Word64) : Prop where
  signals : (signalsOf w).toNat ≤ (waitersOf w).toNat
  waiters : (waitersOf w).toNat ≤ n

/-- The thread is in a `CommitWait` that has pushed its waiter. -/
def Pc.committed : Pc → Bool
  | .commitEpoch | .parkLock | .parkCheck | .parkSet | .parkWait | .parked | .parkUnlock => true
  | _ => false

/-- The thread holds the mutex of its waiter. -/
def Pc.locked : Pc → Bool
  | .parkCheck | .parkSet | .parkWait | .parkUnlock => true
  | _ => false

/-- What is known of a thread at one control point. -/
def Pc.Known (n : Nat) (W : Waiter) : Pc → Prop
  | .prewaitCas state => WordOk n state ∧ (waitersOf state).toNat < n
  | .cancelCas state => WordOk n state ∧ 0 < (waitersOf state).toNat
  | .commitLoad => W.state = .kNotSignaled
  | .commitNext state => W.state = .kNotSignaled ∧ WordOk n state ∧ 0 < (waitersOf state).toNat ∧
    (signalsOf state).toNat = 0
  | .commitCas state => W.state = .kNotSignaled ∧ WordOk n state ∧ 0 < (waitersOf state).toNat ∧
    ((signalsOf state).toNat = 0 → W.next = linkOf state)
  | .parkSet => W.state ≠ .kSignaled
  | .parkWait => W.state = .kWaiting
  | .parked => W.state ≠ .kNotSignaled
  | .parkUnlock => W.state = .kSignaled
  | _ => True

/-- The pushes that are counted in the waiter's epoch. -/
def Pc.epochs (k : Nat) : Pc → Nat
  | .commitEpoch => k - 1
  | _ => k

/-- What is known of a thread, its waiter, its role and the number of its pushes. -/
structure WaiterOk (n : Nat) (pc : Pc) (W : Waiter) (r : Role) (k : Nat) : Prop where
  role : r ≠ .free ↔ pc.committed = true
  pushed : r ≠ .free → 0 < k
  epoch : W.epoch = epochWord (pc.epochs k)
  link : IsLink W.next
  lock : W.mu = some .park ↔ pc.locked = true
  signaled : r ≠ .free → (r = .signaled ↔ W.state = .kSignaled)
  known : pc.Known n W

/-- The links from `p` visit the waiters of the list, and each link has the epoch of the last push
of the waiter that it points to. -/
def Stacked (next : Nat → Word64) (pushes : Nat → Nat) : Word64 → List Nat → Prop
  | p, [] => p = kStackMask
  | p, w :: ws => p = meOf w (epochWord (pushes w - 1)) ∧ Stacked next pushes (next w) ws

/-- `Waiter::next` of all waiters. -/
def St.next (s : St) (w : Nat) : Word64 := (s.mWaiters w).next

/-- The stack of the waiters that committed and were not popped. -/
def Stack (s : St) : Prop :=
  ∃ l, Stacked s.next s.log.pushes (linkOf s.mState) l ∧ l.Nodup ∧
    ∀ w, w ∈ l ↔ s.log.role w = .stacked

/-- The link after waiter `w`, as `Unpark` follows it. -/
def St.succ (s : St) (w : Nat) : Option Nat := topOf (s.next w)

/-- The waiter in hand that is not signalled yet. -/
def NPc.cur : NPc → List Nat
  | .clear w | .unparkNext w | .unparkLock w _ | .unparkState w _ | .unparkSet w _ _ => [w]
  | _ => []

/-- The link to the waiters popped after the one in hand. -/
def NPc.rest (succ : Nat → Option Nat) : NPc → Option Nat
  | .unparkNext w => succ w
  | .unparkLock _ nx | .unparkState _ nx | .unparkSet _ nx _ | .unparkUnlock _ nx _
  | .unparkWake _ nx => nx
  | _ => none

/-- The mutex that the `Notify` holds. -/
def NPc.locks : NPc → Option Nat
  | .unparkState w _ | .unparkSet w _ _ | .unparkUnlock w _ _ => some w
  | _ => none

/-- The waiter whose condition variable the `Notify` is going to notify. -/
def NPc.wakes : NPc → Option Nat
  | .unparkUnlock w _ .kWaiting | .unparkWake w _ => some w
  | _ => none

/-- The word `state`, read by the `Notify` of `m`, has a waiter on top, with the number of pushes
of that waiter at the time of the read. -/
def Popping (n : Nat) (s : St) (m : Nid) (state : Word64) (w : Nat) : Prop :=
  topOf state = some w ∧ w < n ∧ 0 < s.log.since m w ∧ s.log.since m w ≤ s.log.pushes w ∧
    linkOf state = meOf w (epochWord (s.log.since m w - 1))

/-- What is known of a `Notify` with the word `state` and the new word `newstate`. -/
inductive Planned (n : Nat) (s : St) (m : Nid) (state : Word64) : Bool → Word64 → Prop
  | all : Planned n s m state true (notifyAllWord state)
  | signal : (signalsOf state).toNat < (waitersOf state).toNat →
      Planned n s m state false (signalWord state)
  | pop {w : Nat} {next : Word64} : (signalsOf state).toNat = (waitersOf state).toNat →
      Popping n s m state w → IsLink next →
      -- the link is that of the push on top of the stack, if it is still there
      (s.log.pushes w = s.log.since m w → s.log.role w = .stacked → next = s.next w) →
      Planned n s m state false (popWord state next)

/-- What is known of a `Notify` at one control point. -/
def NPc.Known (n : Nat) (s : St) (m : Nid) : NPc → Prop
  | .next state => WordOk n state ∧ (signalsOf state).toNat = (waitersOf state).toNat ∧
    ∃ w, Popping n s m state w
  | .cas all state newstate => WordOk n state ∧ Planned n s m state all newstate
  | .unparkSet w _ state => state = (s.mWaiters w).state
  | _ => True

/-- What is known of the `Notify` of `m`. -/
structure NotifierOk (n : Nat) (s : St) (m : Nid) : Prop where
  known : (s.npc m).Known n s m
  lock : ∀ w, (s.mWaiters w).mu = some (.unpark m) ↔ (s.npc m).locks = some w
  holds : ∃ c, Linked s.succ ((s.npc m).rest s.succ) c ∧ ((s.npc m).cur ++ c).Nodup ∧
    ∀ w, s.log.role w = .held m ↔ w ∈ (s.npc m).cur ++ c

/-- The event count and the threads agree (module doc). -/
structure Inv (n : Nat) (s : St) : Prop where
  waiter : ∀ t, WaiterOk n (s.pc t) (s.mWaiters t) (s.log.role t) (s.log.pushes t)
  range : ∀ t, s.pc t ≠ .idle → t < n
  count : (waitersOf s.mState).toNat = count Pc.pre n s.pc
  signals : (signalsOf s.mState).toNat ≤ (waitersOf s.mState).toNat
  stack : Stack s
  notifier : ∀ m, NotifierOk n s m
  /-- A thread blocked in the wait, whose state says that it is signalled, is about to be woken. -/
  wake : ∀ t, s.pc t = .parked → (s.mWaiters t).state = .kSignaled →
    ∃ m, (s.npc m).wakes = some t

variable {n : Nat} {s s' : St} {t : Tid} {m : Nid}

/-! ## The stack -/

namespace Stacked

variable {next next' : Nat → Word64} {pushes pushes' : Nat → Nat} {p : Word64} {l : List Nat}

theorem congr (h : Stacked next pushes p l)
    (he : ∀ w ∈ l, next' w = next w ∧ pushes' w = pushes w) : Stacked next' pushes' p l := by
  induction l generalizing p with
  | nil => exact h
  | cons w ws ih =>
    obtain ⟨hp, ht⟩ := h
    obtain ⟨h1, h2⟩ := he w List.mem_cons_self
    rw [← h2] at hp
    rw [← h1] at ht
    exact ⟨hp, ih ht fun u hu => he u (List.mem_cons_of_mem w hu)⟩

/-- The links, without the epochs. -/
theorem linked (h : Stacked next pushes p l) (hl : ∀ w ∈ l, w < 2 ^ 14 - 1) :
    Linked (fun w => topOf (next w)) (topOf p) l := by
  induction l generalizing p with
  | nil =>
    change p = _ at h
    rw [h]
    exact topOf_kStackMask
  | cons w ws ih =>
    obtain ⟨hp, ht⟩ := h
    refine ⟨?_, ih ht fun u hu => hl u (List.mem_cons_of_mem w hu)⟩
    rw [hp]
    exact topOf_meOf (hl w List.mem_cons_self) _

theorem eq_nil (h : Stacked next pushes p l) (hl : ∀ w ∈ l, w < 2 ^ 14 - 1)
    (hp : topOf p = none) : l = [] := by
  have := h.linked hl
  rw [hp] at this
  exact this.eq_nil

theorem exists_cons {w : Nat} (h : Stacked next pushes p l) (hl : ∀ w ∈ l, w < 2 ^ 14 - 1)
    (hp : topOf p = some w) : ∃ ws, l = w :: ws ∧ p = meOf w (epochWord (pushes w - 1)) ∧
      Stacked next pushes (next w) ws := by
  have hk := h.linked hl
  rw [hp] at hk
  obtain ⟨ws, rfl, -⟩ := hk.exists_cons
  exact ⟨ws, rfl, h⟩

end Stacked

/-- A step that leaves the links of the stack alone. -/
theorem Stack.frame (h : Stack s) (hlink : linkOf s'.mState = linkOf s.mState)
    (hrole : ∀ w, s'.log.role w = .stacked ↔ s.log.role w = .stacked)
    (hsame : ∀ w, s.log.role w = .stacked → s'.next w = s.next w ∧
      s'.log.pushes w = s.log.pushes w) : Stack s' := by
  obtain ⟨l, h1, h2, h3⟩ := h
  refine ⟨l, ?_, h2, fun w => (h3 w).trans (hrole w).symm⟩
  rw [hlink]
  exact h1.congr fun w hw => hsame w ((h3 w).mp hw)

/-! ## Steps that leave a `Notify` alone -/

/-- What the `Notify` of `m` relies on. -/
structure Frame (s s' : St) (m : Nid) : Prop where
  npc : s'.npc m = s.npc m
  since : s'.log.since m = s.log.since m
  pushes : ∀ w, s.log.pushes w ≤ s'.log.pushes w
  stacked : ∀ w, s'.log.role w = .stacked → s'.log.pushes w = s.log.pushes w →
    s.log.role w = .stacked ∧ s'.next w = s.next w
  held : ∀ w, s'.log.role w = .held m ↔ s.log.role w = .held m
  next : ∀ w, s.log.role w = .held m → s'.next w = s.next w
  state : ∀ w, s.log.role w = .held m → (s.mWaiters w).mu = some (.unpark m) →
    (s'.mWaiters w).state = (s.mWaiters w).state
  mu : ∀ w, (s'.mWaiters w).mu = some (.unpark m) ↔ (s.mWaiters w).mu = some (.unpark m)

theorem Popping.frame {state : Word64} {w : Nat} (h : Popping n s m state w) (hf : Frame s s' m) :
    Popping n s' m state w := by
  obtain ⟨h1, h2, h3, h4, h5⟩ := h
  refine ⟨h1, h2, ?_⟩
  rw [hf.since]
  exact ⟨h3, Nat.le_trans h4 (hf.pushes w), h5⟩

theorem Planned.frame {state newstate : Word64} {all : Bool}
    (h : Planned n s m state all newstate) (hf : Frame s s' m) :
    Planned n s' m state all newstate := by
  cases h with
  | all => exact .all
  | signal hlt => exact .signal hlt
  | @pop w next heq hp hl hnext =>
    refine .pop heq (hp.frame hf) hl fun hk hr => ?_
    -- since the read, the waiter was not pushed
    have h1 := hf.pushes w
    have h2 := hp.2.2.2.1
    rw [hf.since] at hk
    obtain ⟨hr0, hnx⟩ := hf.stacked w hr (by omega)
    rw [hnx]
    exact hnext (by omega) hr0

theorem NPc.rest_congr {f f' : Nat → Option Nat} {pc : NPc} (h : ∀ w ∈ pc.cur, f' w = f w) :
    pc.rest f' = pc.rest f := by
  cases pc with
  | unparkNext w => exact h w List.mem_cons_self
  | _ => rfl

theorem NotifierOk.frame (h : NotifierOk n s m) (hf : Frame s s' m) : NotifierOk n s' m := by
  obtain ⟨c, h1, h2, h3⟩ := h.holds
  have hsucc : ∀ w ∈ (s.npc m).cur ++ c, s'.succ w = s.succ w := fun w hw => by
    rw [St.succ, hf.next w ((h3 w).mpr hw)]
    rfl
  refine ⟨?_, fun w => ?_, c, ?_, ?_, fun w => ?_⟩
  · have hk := h.known
    rw [hf.npc]
    revert hk
    cases hp : s.npc m with
    | next state =>
      rintro ⟨hw, he, w, hpop⟩
      exact ⟨hw, he, w, hpop.frame hf⟩
    | cas all state newstate =>
      rintro ⟨hw, hplan⟩
      exact ⟨hw, hplan.frame hf⟩
    | unparkSet w nx state =>
      intro hst
      change state = _ at hst
      change state = _
      have hr : s.log.role w = .held m := (h3 w).mpr (by simp [hp, NPc.cur])
      have hmu : (s.mWaiters w).mu = some (.unpark m) := (h.lock w).mpr (by rw [hp]; rfl)
      rw [hst, hf.state w hr hmu]
    | _ => exact fun _ => trivial
  · rw [hf.mu, hf.npc]
    exact h.lock w
  · rw [hf.npc, NPc.rest_congr fun w hw => hsucc w (List.mem_append_left c hw)]
    exact h1.congr fun w hw => hsucc w (List.mem_append_right _ hw)
  · rw [hf.npc]
    exact h2
  · rw [hf.held, hf.npc]
    exact h3 w

/-! ## Steps of a thread with a waiter -/

/-- A step of thread `t` changes only its own part and the word. -/
structure WaitStep (s s' : St) (t : Tid) : Prop where
  pc : ∃ pc, s'.pc = Function.update s.pc t pc
  waiter : ∀ u, u ≠ t → s'.mWaiters u = s.mWaiters u
  role : ∀ u, u ≠ t → s'.log.role u = s.log.role u
  pushes : ∀ u, u ≠ t → s'.log.pushes u = s.log.pushes u
  npc : s'.npc = s.npc
  since : s'.log.since = s.log.since

/-- What a step of thread `t` does to the things that a `Notify` reads of its waiter. -/
structure OwnFrame (s s' : St) (t : Tid) : Prop where
  pushes : s.log.pushes t ≤ s'.log.pushes t
  stacked : s'.log.role t = .stacked → s'.log.pushes t = s.log.pushes t →
    s.log.role t = .stacked ∧ s'.next t = s.next t
  held : ∀ m, s'.log.role t = .held m ↔ s.log.role t = .held m
  next : ∀ m, s.log.role t = .held m → s'.next t = s.next t
  state : ∀ m, s.log.role t = .held m → (s.mWaiters t).mu = some (.unpark m) →
    (s'.mWaiters t).state = (s.mWaiters t).state
  mu : ∀ m, (s'.mWaiters t).mu = some (.unpark m) ↔ (s.mWaiters t).mu = some (.unpark m)

theorem WaitStep.frame (hs : WaitStep s s' t) (ho : OwnFrame s s' t) (m : Nid) : Frame s s' m := by
  have hnext : ∀ u, u ≠ t → s'.next u = s.next u := fun u hu => by rw [St.next, hs.waiter u hu]; rfl
  refine ⟨by rw [hs.npc], by rw [hs.since], fun w => ?_, fun w => ?_, fun w => ?_, fun w => ?_,
    fun w => ?_, fun w => ?_⟩ <;> by_cases hw : w = t
  · exact hw ▸ ho.pushes
  · exact Nat.le_of_eq (hs.pushes w hw).symm
  · exact hw ▸ ho.stacked
  · exact fun hr _ => ⟨hs.role w hw ▸ hr, hnext w hw⟩
  · exact hw ▸ ho.held m
  · rw [hs.role w hw]
  · exact hw ▸ ho.next m
  · exact fun _ => hnext w hw
  · exact hw ▸ ho.state m
  · exact fun _ _ => by rw [hs.waiter w hw]
  · exact hw ▸ ho.mu m
  · rw [hs.waiter w hw]

/-- A step of a thread keeps the invariant, if it keeps the thread's own part, the word and the
stack. -/
theorem Inv.wait_step (h : Inv n s) (hs : WaitStep s s' t) (ho : OwnFrame s s' t) (ht : t < n)
    (hw : WaiterOk n (s'.pc t) (s'.mWaiters t) (s'.log.role t) (s'.log.pushes t))
    (hcount : (waitersOf s'.mState).toNat + (s.pc t).pre.toNat =
      (waitersOf s.mState).toNat + (s'.pc t).pre.toNat)
    (hsignals : (signalsOf s'.mState).toNat ≤ (waitersOf s'.mState).toNat) (hstack : Stack s')
    (hwake : s'.pc t = .parked → (s'.mWaiters t).state = .kSignaled →
      ∃ m, (s.npc m).wakes = some t) : Inv n s' := by
  obtain ⟨pc, hpc⟩ := hs.pc
  have hother : ∀ u, u ≠ t → s'.pc u = s.pc u := fun u hu => by
    rw [hpc, Function.update_of_ne hu]
  have hself : s'.pc t = pc := by rw [hpc, Function.update_self]
  refine ⟨fun u => ?_, fun u hu => ?_, ?_, hsignals, hstack, fun m => ?_, fun u hu hst => ?_⟩
  · by_cases hut : u = t
    · exact hut ▸ hw
    · rw [hother u hut, hs.waiter u hut, hs.role u hut, hs.pushes u hut]
      exact h.waiter u
  · by_cases hut : u = t
    · exact hut ▸ ht
    · rw [hother u hut] at hu
      exact h.range u hu
  · have := count_update (p := Pc.pre) (f := s.pc) ht pc
    rw [← hpc] at this
    rw [hself] at hcount
    have := h.count
    omega
  · exact (h.notifier m).frame (hs.frame ho m)
  · rw [hs.npc]
    by_cases hut : u = t
    · subst hut
      exact hwake hu hst
    · rw [hother u hut] at hu
      rw [hs.waiter u hut] at hst
      exact h.wake u hu hst

/-- A step of thread `t` that leaves its role, the number of its pushes and the word alone. -/
theorem Inv.own (h : Inv n s) (ht : t < n) {pc : Pc} {W : Waiter}
    (hw : WaiterOk n pc W (s.log.role t) (s.log.pushes t)) (hpre : pc.pre = (s.pc t).pre)
    (hnext : W.next = (s.mWaiters t).next ∨ s.log.role t = .free)
    (hstate : ∀ m, s.log.role t = .held m → (s.mWaiters t).mu = some (.unpark m) →
      W.state = (s.mWaiters t).state)
    (hmu : ∀ m, W.mu = some (.unpark m) ↔ (s.mWaiters t).mu = some (.unpark m))
    (hwake : pc = .parked → W.state = .kSignaled → ∃ m, (s.npc m).wakes = some t) :
    Inv n ((s.goto t pc).write t W) := by
  have hW : ((s.goto t pc).write t W).mWaiters t = W := Function.update_self ..
  have hpc : ((s.goto t pc).write t W).pc t = pc := Function.update_self ..
  have hnx : s.log.role t ≠ .free → ((s.goto t pc).write t W).next t = s.next t := fun hr => by
    rw [St.next, hW]
    exact hnext.resolve_right hr
  have hother : ∀ u, u ≠ t → ((s.goto t pc).write t W).mWaiters u = s.mWaiters u := fun u hu =>
    Function.update_of_ne hu ..
  refine h.wait_step ⟨⟨pc, rfl⟩, hother, fun _ _ => rfl, fun _ _ => rfl, rfl, rfl⟩
    ⟨Nat.le_refl _, fun hr _ => ⟨hr, hnx fun hf => ?_⟩, fun _ => Iff.rfl, fun m hr => hnx fun hf => ?_,
      ?_, ?_⟩ ht ?_ ?_ h.signals ?_ ?_
  · cases hf.symm.trans hr
  · cases hf.symm.trans hr
  · rw [hW]
    exact hstate
  · rw [hW]
    exact hmu
  · rw [hpc, hW]
    exact hw
  · rw [hpc, hpre]
    rfl
  · refine h.stack.frame rfl (fun _ => Iff.rfl) fun w hr => ⟨?_, rfl⟩
    by_cases hwt : w = t
    · subst hwt
      exact hnx fun hf => by cases hf.symm.trans hr
    · rw [St.next, hother w hwt]
      rfl
  · rw [hpc, hW]
    exact hwake

/-- A step of thread `t` that changes its control point only. -/
theorem Inv.quiet (h : Inv n s) (ht : t < n) {pc : Pc}
    (hw : WaiterOk n pc (s.mWaiters t) (s.log.role t) (s.log.pushes t))
    (hpre : pc.pre = (s.pc t).pre) (hpk : pc ≠ .parked) : Inv n (s.goto t pc) := by
  have hwr : s.goto t pc = (s.goto t pc).write t (s.mWaiters t) := by
    have : (s.goto t pc).mWaiters t = s.mWaiters t := rfl
    rw [St.write, ← this, Function.update_eq_self]
  rw [hwr]
  exact h.own ht hw hpre (.inl rfl) (fun _ _ _ => rfl) (fun _ => Iff.rfl) fun hp => absurd hp hpk

/-- The record of the operations is not read. -/
theorem Inv.emit (h : Inv n s) (e : Event) : Inv n (s.emit e) where
  waiter := h.waiter
  range := h.range
  count := h.count
  signals := h.signals
  stack := h.stack.frame rfl (fun _ => Iff.rfl) fun _ _ => ⟨rfl, rfl⟩
  notifier m := (h.notifier m).frame ⟨rfl, rfl, fun _ => Nat.le_refl _, fun _ hr _ => ⟨hr, rfl⟩,
    fun _ => Iff.rfl, fun _ _ => rfl, fun _ _ _ => rfl, fun _ => Iff.rfl⟩
  wake := h.wake

/-- A step of thread `t` that changes the counters of the word. -/
theorem Inv.word (h : Inv n s) (ht : t < n) {pc : Pc} {w lk : Word64} {p g : Nat}
    (hw : WaiterOk n pc (s.mWaiters t) (s.log.role t) (s.log.pushes t)) (hpk : pc ≠ .parked)
    (hparts : Parts w lk p g) (hlink : lk = linkOf s.mState) (hg : g ≤ p) {a b : Nat}
    (ha : (s.pc t).pre.toNat = a) (hb : pc.pre.toNat = b)
    (hcount : p + a = (waitersOf s.mState).toNat + b) : Inv n ((s.goto t pc).store w) := by
  have hpc : ((s.goto t pc).store w).pc t = pc := Function.update_self ..
  refine h.wait_step ⟨⟨pc, rfl⟩, fun _ _ => rfl, fun _ _ => rfl, fun _ _ => rfl, rfl, rfl⟩
    ⟨Nat.le_refl _, fun hr _ => ⟨hr, rfl⟩, fun _ => Iff.rfl, fun _ _ => rfl, fun _ _ _ => rfl,
      fun _ => Iff.rfl⟩ ht ?_ ?_ ?_ ?_ ?_
  · rw [hpc]
    exact hw
  · rw [hpc, ha, hb, ← hcount]
    exact congrArg (· + a) hparts.waiters
  · change (signalsOf w).toNat ≤ (waitersOf w).toNat
    rw [hparts.waiters, hparts.signals]
    exact hg
  · exact h.stack.frame (hparts.link.trans hlink) (fun _ => Iff.rfl) fun _ _ => ⟨rfl, rfl⟩
  · rw [hpc]
    exact fun hp => absurd hp hpk

/-- The thread moves, its waiter stays. -/
theorem WaiterOk.goto {pc pc' : Pc} {W : Waiter} {r : Role} {k : Nat} (h : WaiterOk n pc W r k)
    (hc : pc'.committed = pc.committed) (hl : pc'.locked = pc.locked)
    (he : pc'.epochs k = pc.epochs k) (hk : pc'.Known n W) : WaiterOk n pc' W r k :=
  ⟨by rw [hc]; exact h.role, h.pushed, by rw [he]; exact h.epoch, h.link,
    by rw [hl]; exact h.lock, h.signaled, hk⟩

end EventCount

end AsyncLib
