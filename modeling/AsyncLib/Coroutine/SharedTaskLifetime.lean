import AsyncLib.Context.RefCount
import AsyncLib.Coroutine.SharedTask

/-!
# The lifetime of a `SharedTask`

`async/coroutine/shared_task.h`: the reference count beside the waiter list of `Coroutine/SharedTask`.
A `SharedTask` owns a reference; an awaiter and the list of waiters own none. The last `SharedTask`
destroys the frame of the coroutine, and with it the promise and the result.

* `step`: copies and destructors of `SharedTask`s, the steps of the awaiters and of the coroutine, and the
  read of the result, in any order. `misused` records an access to a promise that was destroyed, and a
  result that is read before it is there.
* `Kept`: the last `SharedTask` is not destroyed while a `co_await` is under way.
* `Inv.rest`: a coroutine that nobody awaits is at its start, or its `FinalAwaiter` is through.
* `lifetime_correct`: in every run the promise is used while its frame lives, and the frame is destroyed
  once, where the coroutine is suspended.

A move of a `SharedTask` does not change the count and is left out.
-/

namespace AsyncLib

namespace SharedTaskLifetime

open Sys SharedTask

/-! ## The code -/

/-- The shared task, its result, and who refers to it. -/
structure St where
  core : SharedTask.St
  mRefCount : Nat
  mException : Bool
  /-- The `SharedTask`s. -/
  handles : Nat
  /-- The awaiters whose `co_await` has begun and is not over, and those whose `co_await` is over. -/
  awaiting : List Nat
  awaited : List Nat
  /-- The threads at `mCoroutine.destroy()`, and its calls. -/
  atDestroy : Nat
  destroyed : Nat
  /-- How often the result was constructed and destroyed. -/
  constructed : Nat
  released : Nat
  misused : Bool

/-- A step of the task, or a copy or the end of a `SharedTask` or of an awaiter. -/
inductive Label where
  | tryAwait (i : Nat) (spurious : Bool)
  /-- The next step of the coroutine; its body ends with an exception or a result. -/
  | body (throws : Bool)
  /-- `await_resume`. -/
  | awaitResume (i : Nat)
  | copy
  /-- `SharedTask::destroy`, up to `mCoroutine.destroy()`. -/
  | drop
  | destroy
  deriving DecidableEq, Repr

/-- An access to the promise. -/
def St.touch (s : St) : St := { s with misused := s.misused || decide (0 < s.destroyed) }

/-- One step; `none` if it is not enabled. -/
def step (s : St) : Label → Option St
  | .tryAwait i spurious =>
    if s.core.pc i = .idle ∧ s.handles = 0 then none
    else (SharedTask.tryAwait s.core i spurious).map fun c =>
      { s.touch with
        core := c
        awaiting := if s.core.pc i = .idle then i :: s.awaiting else s.awaiting }
  | .body throws =>
    (SharedTask.runBody s.core).map fun c =>
      match s.core.body with
      | .running =>
        { s.touch with
          core := c
          mException := throws
          constructed := if throws then s.constructed else s.constructed + 1 }
      | .completed => { s.touch with core := c }
      | _ => { s with core := c }
  | .awaitResume i =>
    if i ∈ s.awaiting ∧ (s.core.pc i = .ready ∨ i ∈ s.core.resumed) then
      some { s with
        awaiting := s.awaiting.erase i
        awaited := i :: s.awaited
        misused := s.touch.misused || !(s.mException || decide (s.constructed = 1)) }
    else none
  | .copy =>
    if 0 < s.handles then
      some { s.touch with mRefCount := RefCount.fetchAdd s.mRefCount 1, handles := s.handles + 1 }
    else none
  | .drop =>
    if 0 < s.handles then
      some { s.touch with
        mRefCount := RefCount.fetchSub s.mRefCount 1
        handles := s.handles - 1
        atDestroy := if s.mRefCount = 1 then s.atDestroy + 1 else s.atDestroy }
    else none
  | .destroy =>
    if 0 < s.atDestroy then
      some { s.touch with
        atDestroy := s.atDestroy - 1
        destroyed := s.destroyed + 1
        released := if s.core.mWaiters = .valueReadyValue ∧ s.mException = false then s.released + 1
          else s.released }
    else none

/-- A new task, with the `SharedTask` that the call of the coroutine returned. -/
def init : St where
  core := SharedTask.init
  mRefCount := 1
  mException := false
  handles := 1
  awaiting := []
  awaited := []
  atDestroy := 0
  destroyed := 0
  constructed := 0
  released := 0
  misused := false

/-- All runs of a shared task and its handles. -/
def sys : Sys St Label := ofFun init step

/-- The last `SharedTask` is not destroyed while a `co_await` is under way, and the count does not
overflow. -/
def Kept (s : St) : Label → Prop
  | .drop => s.handles = 1 → s.awaiting = []
  | .copy => s.handles + 1 < 2 ^ 32
  | _ => True

instance (s : St) : ∀ l, Decidable (Kept s l)
  | .drop => inferInstanceAs (Decidable (_ → _))
  | .copy => inferInstanceAs (Decidable (_ < _))
  | .tryAwait _ _ | .body _ | .awaitResume _ | .destroy => inferInstanceAs (Decidable True)

/-! ## The steps of the awaiters and of the coroutine -/

/-- The body has ended. -/
def ended : Body → Bool
  | .initial | .running => false
  | _ => true

section Core

variable {c c' : SharedTask.St} {i : Nat}

/-- A step of an awaiter, which was not through. -/
structure Tries (c : SharedTask.St) (i : Nat) (c' : SharedTask.St) : Prop where
  notReady : c.pc i ≠ .ready
  notQueued : c.pc i ≠ .queued
  pc : ∃ pc, c'.pc = Function.update c.pc i pc ∧ pc ≠ .idle
  resumed : c'.resumed = c.resumed
  starters : ∀ j ∈ c'.starters, j ∈ c.starters ∨ j = i
  body : ended c'.body = ended c.body

theorem tries_goto {pc : Pc} (h1 : c.pc i ≠ .ready) (h2 : c.pc i ≠ .queued) (hpc : pc ≠ .idle) :
    Tries c i (c.goto i pc) :=
  ⟨h1, h2, ⟨pc, rfl, hpc⟩, rfl, fun _ => .inl, rfl⟩

theorem tryAwait_tries {spurious : Bool} (h : SharedTask.Inv c)
    (hs : SharedTask.tryAwait c i spurious = some c') : Tries c i c' := by
  cases hpc : c.pc i with
  | idle =>
    simp only [SharedTask.tryAwait, hpc, Option.some.injEq] at hs
    subst hs
    refine tries_goto (by simp [hpc]) (by simp [hpc]) ?_
    split <;> simp
  | start =>
    simp only [SharedTask.tryAwait, hpc] at hs
    by_cases hw : c.mWaiters = .notStartedValue
    · have hb := h.initial hw
      simp only [hw, hb, if_true, Option.some.injEq] at hs
      subst hs
      exact ⟨by simp [hpc], by simp [hpc], ⟨_, rfl, by simp⟩, rfl,
        fun j hj => by simpa using hj, by simp [hb, ended]⟩
    · rw [if_neg hw, Option.some.injEq] at hs
      subst hs
      exact tries_goto (by simp [hpc]) (by simp [hpc]) (by simp)
  | resuming | reload =>
    simp only [SharedTask.tryAwait, hpc, Option.some.injEq] at hs
    subst hs
    exact tries_goto (by simp [hpc]) (by simp [hpc]) (by simp)
  | enqueue oldWaiters =>
    simp only [SharedTask.tryAwait, hpc] at hs
    split at hs <;> cases hs
    · exact tries_goto (by simp [hpc]) (by simp [hpc]) (by simp)
    · exact ⟨by simp [hpc], by simp [hpc], ⟨_, rfl, by simp⟩, rfl, fun _ => .inl, rfl⟩
  | cas oldWaiters =>
    simp only [SharedTask.tryAwait, hpc] at hs
    split at hs <;> cases hs
    · exact ⟨by simp [hpc], by simp [hpc], ⟨_, rfl, by simp⟩, rfl, fun _ => .inl, rfl⟩
    · exact tries_goto (by simp [hpc]) (by simp [hpc]) (by simp)
  | queued | ready =>
    simp only [SharedTask.tryAwait, hpc] at hs
    cases hs

/-- A step of the coroutine. -/
structure Runs (c c' : SharedTask.St) : Prop where
  pc : c'.pc = c.pc
  resumed : ∀ i ∈ c.resumed, i ∈ c'.resumed
  starters : c'.starters = c.starters
  body : c.body ≠ .initial ∧ ended c'.body = true

theorem ended_afterResume (p : Ptr) : ended (afterResume p) = true := by
  unfold afterResume
  split <;> rfl

theorem runBody_runs (hs : SharedTask.runBody c = some c') : Runs c c' := by
  cases hb : c.body with
  | initial | done | fault =>
    simp only [SharedTask.runBody, hb] at hs
    cases hs
  | running =>
    simp only [SharedTask.runBody, hb, Option.some.injEq] at hs
    subst hs
    exact ⟨rfl, fun _ h => h, rfl, by simp [hb], rfl⟩
  | completed =>
    simp only [SharedTask.runBody, hb, Option.some.injEq] at hs
    subst hs
    exact ⟨rfl, fun _ h => h, rfl, by simp [hb], ended_afterResume _⟩
  | walk p =>
    cases p with
    | waiter i =>
      simp only [SharedTask.runBody, hb, Option.some.injEq] at hs
      subst hs
      refine ⟨rfl, fun _ h => h, rfl, by simp [hb], ?_⟩
      dsimp only
      split <;> rfl
    | _ =>
      simp only [SharedTask.runBody, hb, Option.some.injEq] at hs
      subst hs
      exact ⟨rfl, fun _ h => h, rfl, by simp [hb], rfl⟩
  | resume i next =>
    simp only [SharedTask.runBody, hb, Option.some.injEq] at hs
    subst hs
    exact ⟨rfl, fun _ h => List.mem_append_left _ h, rfl, by simp [hb], ended_afterResume next⟩

end Core

/-! ## The invariant -/

/-- The result is there, or the exception. -/
structure Value (body : Body) (constructed : Nat) (mException : Bool) : Prop where
  before : ended body = false → constructed = 0 ∧ mException = false
  after : ended body = true → constructed = if mException then 0 else 1

/-- The references and the frame. -/
structure Frame (s : St) : Prop where
  count : s.mRefCount = s.handles
  fits : s.handles < 2 ^ 32
  destroyed : s.atDestroy + s.destroyed = if s.handles = 0 then 1 else 0
  released : s.released = if s.destroyed = 0 then 0 else s.constructed

/-- The awaiters of the task are those of its users, and the count is theirs and the coroutine's. -/
structure Inv (s : St) : Prop where
  core : SharedTask.Inv s.core
  nodup : s.awaiting.Nodup
  awaiting : ∀ i, i ∈ s.awaiting ↔ s.core.pc i ≠ .idle ∧ i ∉ s.awaited
  awaited : ∀ i ∈ s.awaited, s.core.pc i = .ready ∨ i ∈ s.core.resumed
  starters : ∀ i ∈ s.core.starters, s.core.pc i ≠ .idle
  value : Value s.core.body s.constructed s.mException
  frame : Frame s
  free : s.handles = 0 → s.awaiting = []
  defined : s.misused = false

theorem inv_init : Inv init where
  core := SharedTask.inv_init
  nodup := .nil
  awaiting i := by simp [init, SharedTask.init]
  awaited i h := by cases h
  starters i h := by cases h
  value := ⟨fun _ => ⟨rfl, rfl⟩, fun h => by cases h⟩
  frame := ⟨rfl, by decide, rfl, rfl⟩
  free h := by cases h
  defined := rfl

namespace Inv

variable {s s' : St} {i : Nat}

/-- An awaiter that is neither ready nor resumed awaits. -/
theorem awaits (h : Inv s) (hidle : s.core.pc i ≠ .idle) (hready : s.core.pc i ≠ .ready)
    (hres : i ∉ s.core.resumed) : i ∈ s.awaiting :=
  (h.awaiting i).mpr ⟨hidle, fun hi => (h.awaited i hi).elim hready hres⟩

/-- **A coroutine that nobody awaits is at its start, or its `FinalAwaiter` is through.** -/
theorem rest (h : Inv s) (hnil : s.awaiting = []) : s.core.body = .initial ∨ s.core.body = .done := by
  obtain ⟨l, hl, -, hmem⟩ := h.core.list
  -- a waiter in the list awaits
  have hlist : l = [] := List.eq_nil_iff_forall_not_mem.mpr fun i hi => by
    obtain ⟨hq, hr⟩ := (hmem i).mp hi
    have hi := h.awaits (by simp [hq]) (by simp [hq]) hr
    rw [hnil] at hi
    cases hi
  subst hlist
  -- and so does who started the coroutine, while it runs
  have hrun : s.core.body.final ∨ s.core.body = .initial := by
    by_cases hf : s.core.body.final
    · exact .inl hf
    refine .inr (h.core.starters.2.mpr (List.eq_nil_iff_forall_not_mem.mpr fun i hi => ?_))
    have hready : s.core.pc i ≠ .ready := fun hc => hf (by simpa [hc, PcOk] using h.core.pcs i)
    have hres : i ∉ s.core.resumed := by simp [h.core.resumed.2.2 hf]
    have hi := h.awaits (h.starters i hi) hready hres
    rw [hnil] at hi
    cases hi
  cases hb : s.core.body with
  | initial => exact .inl rfl
  | done => exact .inr rfl
  | walk p =>
    rw [hb] at hl
    obtain ⟨hlinked, i, rfl⟩ := hl
    cases hlinked
  | resume i next =>
    rw [hb] at hl
    obtain ⟨rest, hcons, -⟩ := hl
    cases hcons
  | running | completed | fault =>
    rw [hb] at hrun
    rcases hrun with hf | hf <;> cases hf

/-- The frame lives while there is a `SharedTask`. -/
theorem lives (h : Inv s) (hpos : s.handles ≠ 0) : s.destroyed = 0 := by
  have hd := h.frame.destroyed
  rw [if_neg hpos] at hd
  omega

theorem touch (h : Inv s) (hpos : s.handles ≠ 0) : s.touch.misused = false := by
  simp [St.touch, h.defined, h.lives hpos]

theorem awaits_handles (h : Inv s) (hi : i ∈ s.awaiting) : s.handles ≠ 0 := fun h0 => by
  rw [h.free h0] at hi
  cases hi

/-! ### The steps -/

theorem tryAwait (h : Inv s) {spurious : Bool} (hs : step s (.tryAwait i spurious) = some s') :
    Inv s' := by
  simp only [step] at hs
  split at hs
  · cases hs
  rename_i hguard
  obtain ⟨c, hc, rfl⟩ := Option.map_eq_some_iff.mp hs
  have hcore := h.core.tryAwait hc
  obtain ⟨hnr, hnq, ⟨pc, hpc, hne⟩, hres, hst, hbody⟩ := tryAwait_tries h.core hc
  have hnres : i ∉ s.core.resumed := fun hr => hnq (h.core.resumed.2.1 i hr)
  have hnaw : i ∉ s.awaited := fun ha => (h.awaited i ha).elim hnr hnres
  have hpos : s.handles ≠ 0 := by
    by_cases hidle : s.core.pc i = .idle
    · exact fun h0 => hguard ⟨hidle, h0⟩
    · exact h.awaits_handles (h.awaits hidle hnr hnres)
  have hidle : s.core.pc i = .idle → i ∉ s.awaiting := fun hp hi => ((h.awaiting i).mp hi).1 hp
  refine ⟨hcore, ?_, fun j => ?_, fun j hj => ?_, fun j hj => ?_, ?_, ⟨h.frame.count, h.frame.fits,
    h.frame.destroyed, h.frame.released⟩, fun h0 => absurd h0 hpos, h.touch hpos⟩
  · show (if s.core.pc i = .idle then i :: s.awaiting else s.awaiting).Nodup
    split
    · rename_i hp
      exact List.nodup_cons.mpr ⟨hidle hp, h.nodup⟩
    · exact h.nodup
  · show j ∈ (if s.core.pc i = .idle then i :: s.awaiting else s.awaiting) ↔
      c.pc j ≠ .idle ∧ j ∉ s.awaited
    have hj := h.awaiting j
    by_cases hji : j = i
    · subst hji
      simp only [hpc, Function.update_self, ne_eq, hne, not_false_eq_true, hnaw, and_self, iff_true]
      split
      · exact List.mem_cons_self
      · rename_i hp
        exact hj.mpr ⟨hp, hnaw⟩
    · rw [hpc, Function.update_of_ne hji]
      split
      · simpa [hji] using hj
      · exact hj
  · have hji : j ≠ i := fun he => hnaw (he ▸ hj)
    show c.pc j = .ready ∨ j ∈ c.resumed
    rw [hpc, Function.update_of_ne hji, hres]
    exact h.awaited j hj
  · show c.pc j ≠ .idle
    by_cases hji : j = i
    · subst hji
      rw [hpc, Function.update_self]
      exact hne
    · rw [hpc, Function.update_of_ne hji]
      exact h.starters j ((hst j hj).resolve_right hji)
  · exact ⟨fun he => h.value.before (hbody ▸ he), fun he => h.value.after (hbody ▸ he)⟩

theorem body (h : Inv s) {throws : Bool} (hs : step s (.body throws) = some s') : Inv s' := by
  obtain ⟨c, hc, hs⟩ := Option.map_eq_some_iff.mp hs
  have hcore := h.core.runBody hc
  obtain ⟨hpc, hres, hst, hinit, hended⟩ := runBody_runs hc
  have hpos : s.handles ≠ 0 := fun h0 => by
    rcases h.rest (h.free h0) with hb | hb
    · exact hinit hb
    · simp only [SharedTask.runBody, hb] at hc
      cases hc
  have haw : ∀ i ∈ s.awaited, c.pc i = .ready ∨ i ∈ c.resumed := fun i hi =>
    (h.awaited i hi).imp (fun hp => hpc ▸ hp) (hres i)
  have hmem : ∀ i, i ∈ s.awaiting ↔ c.pc i ≠ .idle ∧ i ∉ s.awaited := fun i => hpc ▸ h.awaiting i
  have hstart : ∀ i ∈ c.starters, c.pc i ≠ .idle := fun i hi => hpc ▸ h.starters i (hst ▸ hi)
  have hreleased : ∀ n, s.released = if s.destroyed = 0 then 0 else n := fun n => by
    rw [h.frame.released, if_pos (h.lives hpos), if_pos (h.lives hpos)]
  have hframe := h.frame
  cases hb : s.core.body with
  | running =>
    simp only [hb] at hs
    subst hs
    obtain ⟨h0, -⟩ := h.value.before (by rw [hb]; rfl)
    refine ⟨hcore, h.nodup, hmem, haw, hstart, ⟨fun he => ?_, fun _ => ?_⟩,
      ⟨hframe.count, hframe.fits, hframe.destroyed, hreleased _⟩, h.free, h.touch hpos⟩
    · cases hended.symm.trans he
    · show (if throws then s.constructed else s.constructed + 1) = if throws then 0 else 1
      rw [h0]
  | completed =>
    simp only [hb] at hs
    subst hs
    refine ⟨hcore, h.nodup, hmem, haw, hstart, ⟨fun he => ?_, fun _ => ?_⟩,
      ⟨hframe.count, hframe.fits, hframe.destroyed, hreleased _⟩, h.free, h.touch hpos⟩
    · cases hended.symm.trans he
    · exact h.value.after (by rw [hb]; rfl)
  | initial => exact absurd hb hinit
  | walk | resume | done | fault =>
    simp only [hb] at hs
    subst hs
    refine ⟨hcore, h.nodup, hmem, haw, hstart, ⟨fun he => ?_, fun _ => ?_⟩,
      ⟨hframe.count, hframe.fits, hframe.destroyed, hreleased _⟩, h.free, h.defined⟩
    · cases hended.symm.trans he
    · exact h.value.after (by rw [hb]; rfl)

/-- The result is there when `await_resume` reads it. -/
theorem result (h : Inv s) (hi : s.core.pc i = .ready ∨ i ∈ s.core.resumed) :
    (s.mException || decide (s.constructed = 1)) = true := by
  have hfinal : s.core.body.final := by
    rcases hi with hi | hi
    · simpa [hi, PcOk] using h.core.pcs i
    · by_contra hf
      rw [h.core.resumed.2.2 hf] at hi
      cases hi
  have hended : ended s.core.body = true := by
    cases hb : s.core.body with
    | walk | resume | done => rfl
    | initial | running | completed | fault =>
      rw [hb] at hfinal
      cases hfinal
  have hc := h.value.after hended
  cases he : s.mException <;> simp_all

theorem awaitResume (h : Inv s) (hs : step s (.awaitResume i) = some s') : Inv s' := by
  simp only [step] at hs
  split at hs
  · rename_i hi
    cases hs
    have hpos := h.awaits_handles hi.1
    refine ⟨h.core, h.nodup.erase i, fun j => ?_, fun j hj => ?_, h.starters, h.value,
      ⟨h.frame.count, h.frame.fits, h.frame.destroyed, h.frame.released⟩, fun h0 => absurd h0 hpos, ?_⟩
    · show j ∈ s.awaiting.erase i ↔ s.core.pc j ≠ .idle ∧ j ∉ i :: s.awaited
      rw [h.nodup.mem_erase_iff, h.awaiting j, List.mem_cons, not_or]
      tauto
    · rcases List.mem_cons.mp hj with rfl | hj
      · exact hi.2
      · exact h.awaited j hj
    · show (s.touch.misused || !(s.mException || decide (s.constructed = 1))) = false
      rw [h.touch hpos, h.result hi.2]
      rfl
  · cases hs

theorem copy (h : Inv s) (hok : Kept s .copy) (hs : step s .copy = some s') : Inv s' := by
  simp only [step] at hs
  split at hs
  · rename_i hpos
    cases hs
    have hpos := Nat.ne_of_gt hpos
    have hfits : s.handles + 1 < 2 ^ 32 := hok
    refine ⟨h.core, h.nodup, h.awaiting, h.awaited, h.starters, h.value, ⟨?_, hfits, ?_, h.frame.released⟩,
      fun h0 => absurd h0 (Nat.succ_ne_zero _), h.touch hpos⟩
    · show RefCount.fetchAdd s.mRefCount 1 = s.handles + 1
      rw [RefCount.fetchAdd, h.frame.count, Nat.mod_eq_of_lt hfits]
    · have hd := h.frame.destroyed
      rw [if_neg hpos] at hd
      exact hd.trans (if_neg (Nat.succ_ne_zero _)).symm
  · cases hs

theorem drop (h : Inv s) (hok : Kept s .drop) (hs : step s .drop = some s') : Inv s' := by
  simp only [step] at hs
  split at hs
  · rename_i hpos
    cases hs
    have hne := Nat.ne_of_gt hpos
    have hfits := h.frame.fits
    have hd := h.frame.destroyed
    rw [if_neg hne] at hd
    refine ⟨h.core, h.nodup, h.awaiting, h.awaited, h.starters, h.value,
      ⟨?_, by dsimp only; omega, ?_, h.frame.released⟩, fun h0 => hok ?_, h.touch hne⟩
    · show RefCount.fetchSub s.mRefCount 1 = s.handles - 1
      rw [RefCount.fetchSub, h.frame.count]
      omega
    · show (if s.mRefCount = 1 then s.atDestroy + 1 else s.atDestroy) + s.destroyed =
        if s.handles - 1 = 0 then 1 else 0
      rw [h.frame.count]
      by_cases h1 : s.handles = 1
      · rw [if_pos h1, if_pos (by omega)]
        omega
      · rw [if_neg h1, if_neg (by omega)]
        exact hd
    · dsimp only at h0
      omega
  · cases hs

theorem destroy (h : Inv s) (hs : step s .destroy = some s') : Inv s' := by
  simp only [step] at hs
  split at hs
  · rename_i hpos
    cases hs
    have hd := h.frame.destroyed
    have h0 : s.handles = 0 := by
      by_contra hne
      rw [if_neg hne] at hd
      omega
    rw [if_pos h0] at hd
    have hd0 : s.destroyed = 0 := by omega
    have hrel : s.released = 0 := by rw [h.frame.released, if_pos hd0]
    refine ⟨h.core, h.nodup, h.awaiting, h.awaited, h.starters, h.value,
      ⟨h.frame.count, h.frame.fits, ?_, ?_⟩, h.free, ?_⟩
    · show s.atDestroy - 1 + (s.destroyed + 1) = if s.handles = 0 then 1 else 0
      rw [if_pos h0]
      omega
    · show (if s.core.mWaiters = .valueReadyValue ∧ s.mException = false then s.released + 1
        else s.released) = if s.destroyed + 1 = 0 then 0 else s.constructed
      rw [if_neg (Nat.succ_ne_zero _), hrel]
      have hword := h.core.word
      rcases h.rest (h.free h0) with hb | hb
      · rw [hb] at hword
        have hw : s.core.mWaiters = .notStartedValue := hword
        rw [(h.value.before (by rw [hb]; rfl)).1, if_neg (by rw [hw]; simp)]
      · rw [hb] at hword
        have hw : s.core.mWaiters = .valueReadyValue := hword
        rw [h.value.after (by rw [hb]; rfl)]
        cases s.mException <;> simp [hw]
    · show s.touch.misused = false
      simp [St.touch, h.defined, hd0]
  · cases hs

end Inv

/-! ## All runs -/

theorem inv_reach {s : St} (hs : sys.Reach Kept s) : Inv s := by
  refine hs.invariant ?_ ?_
  · rintro s rfl
    exact inv_init
  · intro s l s' h hok hn
    cases l with
    | tryAwait i spurious => exact h.tryAwait hn
    | body throws => exact h.body hn
    | awaitResume i => exact h.awaitResume hn
    | copy => exact h.copy hok hn
    | drop => exact h.drop hok hn
    | destroy => exact h.destroy hn

/-- The promise and its frame. -/
structure Correct (s : St) : Prop where
  /-- No promise is used after its frame was destroyed, and no result is read before it is there. -/
  defined : s.misused = false
  /-- The frame is destroyed once, by the last `SharedTask`. -/
  destroyed : s.atDestroy + s.destroyed = if s.handles = 0 then 1 else 0
  /-- There is nobody who awaits, and the coroutine is suspended at its start or at its end. -/
  suspended : s.handles = 0 → s.awaiting = [] ∧ (s.core.body = .initial ∨ s.core.body = .done)
  /-- The result is destroyed with the frame if it was constructed. -/
  released : s.released = if s.destroyed = 0 then 0 else s.constructed
  constructed : s.constructed ≤ 1

/-- **A `SharedTask` outlives its awaiters**, in every run in which the last one is not destroyed while a
`co_await` is under way. -/
theorem lifetime_correct {s : St} (hs : sys.Reach Kept s) : Correct s := by
  have h := inv_reach hs
  refine ⟨h.defined, h.frame.destroyed, fun h0 => ⟨h.free h0, h.rest (h.free h0)⟩, h.frame.released, ?_⟩
  cases he : ended s.core.body with
  | false => simp [(h.value.before he).1]
  | true =>
    rw [h.value.after he]
    split <;> decide

/-- Two awaiters, each with its own `SharedTask`. The second one is resumed first and drops its own before
`FinalAwaiter` goes on; the first one destroys the frame. -/
def twoAwaiters : List Label :=
  [.copy, .tryAwait 0 false, .tryAwait 0 false, .tryAwait 0 false, .tryAwait 0 false, .tryAwait 0 false,
    .tryAwait 0 false, .tryAwait 1 false, .tryAwait 1 false, .tryAwait 1 false, .body false, .body false,
    .body false, .body false, .awaitResume 1, .drop, .body false, .body false, .awaitResume 0, .drop,
    .destroy]

theorem lifetime_correct_two : ∃ s, s.destroyed = 1 ∧ s.released = 1 ∧ Correct s := by
  have hr : ∀ s, runLabels (guarded step Kept) init twoAwaiters = some s → Correct s := fun s h =>
    lifetime_correct (reach_guarded (.init rfl) twoAwaiters h)
  exact ⟨_, rfl, rfl, hr _ rfl⟩

/-- A comment in the source gives the coroutine a reference of its own. It has none: it runs on after its
last `SharedTask` was destroyed. -/
example : (runLabels step init
    [.tryAwait 0 false, .tryAwait 0 false, .drop, .destroy, .body false]).map St.misused = some true :=
  rfl

end SharedTaskLifetime

end AsyncLib
