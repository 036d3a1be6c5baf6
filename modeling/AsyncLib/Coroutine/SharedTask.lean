import AsyncLib.Lib.Linked
import AsyncLib.Lib.System

/-!
# `SharedTask`

`async/coroutine/shared_task.h`: `TryAwait` and `FinalAwaiter` on the word `mWaiters`, under
sequentially consistent interleaving of the single loads, compare-exchanges, the exchange and the
accesses to `mNext`. Any number of coroutines await the task, each with its own `SharedTaskWaiter`.

* `Ptr`: what the word and the link fields hold; a sentinel is not a waiter.
* `Pc`: where an awaiter is in `TryAwait`; `Body`: where the shared coroutine is. The call of
  `coroutine.resume()` in `TryAwait` returns at any time: the coroutine may have suspended itself,
  and go on elsewhere, or have run to its end.
* `Inv`: the word's list, or what `FinalAwaiter` has left of it, links exactly the queued waiters
  that were not resumed.
* `sharedTask_correct`: in every state reached.

A waiter may be destroyed as soon as its coroutine is resumed; following a sentinel or a destroyed
waiter is `fault`.
-/

namespace AsyncLib

namespace SharedTask

open Sys

/-! ## The code -/

/-- `void *`, as `mWaiters` and `mNext` hold it. -/
inductive Ptr where
  /-- `&this->mWaiters`. -/
  | notStartedValue
  /-- `nullptr`. -/
  | startedNoWaitersValue
  /-- `this`. -/
  | valueReadyValue
  | waiter (i : Nat)
  deriving DecidableEq, Repr

/-- Where an awaiter is. -/
inductive Pc where
  /-- Before its first load. -/
  | idle
  /-- At the strong compare-exchange. -/
  | start
  /-- In `coroutine.resume()`. -/
  | resuming
  /-- At the load after it. -/
  | reload
  /-- At the head of the loop. -/
  | enqueue (oldWaiters : Ptr)
  /-- At the weak compare-exchange. -/
  | cas (oldWaiters : Ptr)
  /-- `TryAwait` returned true. -/
  | queued
  /-- `TryAwait` returned false. -/
  | ready
  deriving DecidableEq, Repr

/-- Where the shared coroutine is. -/
inductive Body where
  /-- Suspended at its start. -/
  | initial
  | running
  /-- Its result is there, and `FinalAwaiter` is before its exchange. -/
  | completed
  /-- At the read of `waiter->mNext`. -/
  | walk (waiter : Ptr)
  /-- At `waiter->mContinuate.resume()`; the link was read before. -/
  | resume (i : Nat) (next : Ptr)
  | done
  | fault
  deriving DecidableEq, Repr

/-- The list of waiters with its links, the awaiters, and the body. -/
structure St where
  mWaiters : Ptr
  mNext : Nat → Ptr
  pc : Nat → Pc
  body : Body
  /-- The awaiters that resumed the coroutine from its start. -/
  starters : List Nat
  /-- The awaiters whose compare-exchange changed the word, in order. -/
  writers : List Nat
  /-- The waiters that `FinalAwaiter` resumed, in order. -/
  resumed : List Nat

/-- A step of an awaiter, or one of the body. -/
inductive Label where
  /-- The next step of an awaiter; a weak compare-exchange may fail spuriously. -/
  | tryAwait (i : Nat) (spurious : Bool)
  /-- The next step of the shared coroutine. -/
  | body
  deriving DecidableEq, Repr

/-- The awaiter `i` goes on at `pc`. -/
def St.goto (s : St) (i : Nat) (pc : Pc) : St := { s with pc := Function.update s.pc i pc }

/-- The step of `TryAwait` at the place `pc` of awaiter `i`. -/
def tryAwait (s : St) (i : Nat) (spurious : Bool) : Option St :=
  match s.pc i with
  | .idle =>
    some (s.goto i (if s.mWaiters = .notStartedValue then .start else .enqueue s.mWaiters))
  | .start =>
    if s.mWaiters = .notStartedValue then
      -- a coroutine that is not at its start must not be resumed here
      some { s.goto i .resuming with
        mWaiters := .startedNoWaitersValue
        body := if s.body = .initial then .running else .fault
        starters := s.starters ++ [i]
        writers := s.writers ++ [i] }
    else some (s.goto i (.enqueue s.mWaiters))
  | .resuming => some (s.goto i .reload)
  | .reload => some (s.goto i (.enqueue s.mWaiters))
  | .enqueue oldWaiters =>
    if oldWaiters = .valueReadyValue then some (s.goto i .ready)
    else some { s.goto i (.cas oldWaiters) with mNext := Function.update s.mNext i oldWaiters }
  | .cas oldWaiters =>
    if spurious = false ∧ s.mWaiters = oldWaiters then
      some { s.goto i .queued with mWaiters := .waiter i, writers := s.writers ++ [i] }
    else some (s.goto i (.enqueue s.mWaiters))
  | .queued | .ready => none

/-- The next waiter to resume, if there is one. -/
def afterResume (next : Ptr) : Body :=
  if next = .startedNoWaitersValue then .done else .walk next

/-- The coroutine runs to its end, and then `FinalAwaiter::await_suspend`. -/
def runBody (s : St) : Option St :=
  match s.body with
  | .running => some { s with body := .completed }
  | .completed =>
    some { s with mWaiters := .valueReadyValue, body := afterResume s.mWaiters }
  | .walk (.waiter i) =>
    some { s with body := if i ∈ s.resumed then .fault else .resume i (s.mNext i) }
  | .walk _ => some { s with body := .fault }
  | .resume i next => some { s with resumed := s.resumed ++ [i], body := afterResume next }
  | .initial | .done | .fault => none

/-- One step; `none` if it is not enabled. -/
def step (s : St) : Label → Option St
  | .tryAwait i spurious => tryAwait s i spurious
  | .body => runBody s

/-- A new task: no awaiter has begun, and the links hold nothing yet. -/
def init : St where
  mWaiters := .notStartedValue
  mNext _ := .startedNoWaitersValue
  pc _ := .idle
  body := .initial
  starters := []
  writers := []
  resumed := []

/-- All runs of a shared task. -/
def sys : Sys St Label := ofFun init step

/-! ## The invariant -/

/-- The waiter that a pointer points to. -/
def Ptr.waiter? : Ptr → Option Nat
  | .waiter i => some i
  | _ => none

/-- Not a sentinel: null or a waiter. -/
def Ptr.Plain (p : Ptr) : Prop := p ≠ .notStartedValue ∧ p ≠ .valueReadyValue

/-- The body has begun. -/
def Body.started : Body → Prop
  | .initial => False
  | _ => True

/-- After the exchange of `FinalAwaiter`. -/
def Body.final : Body → Prop
  | .walk _ | .resume _ _ | .done => True
  | _ => False

/-- The word, by the place of the coroutine. -/
def WordOk (mWaiters : Ptr) : Body → Prop
  | .initial => mWaiters = .notStartedValue
  | .running | .completed => mWaiters.Plain
  | .walk _ | .resume _ _ | .done => mWaiters = .valueReadyValue
  | .fault => False

/-- The waiters that are still to be resumed are `l`. -/
def ListOk (mWaiters : Ptr) (mNext : Nat → Ptr) (l : List Nat) : Body → Prop
  | .initial | .done | .fault => l = []
  | .running | .completed => Linked (fun i => (mNext i).waiter?) mWaiters.waiter? l
  | .walk p => Linked (fun i => (mNext i).waiter?) p.waiter? l ∧ ∃ i, p = .waiter i
  | .resume i next => ∃ rest, l = i :: rest ∧ mNext i = next ∧
      Linked (fun i => (mNext i).waiter?) next.waiter? rest

/-- What is known of an awaiter whose link field holds `link`. -/
def PcOk (body : Body) (link : Ptr) : Pc → Prop
  | .idle | .start => True
  | .resuming | .reload | .queued => body.started
  | .enqueue oldWaiters =>
    body.started ∧ oldWaiters ≠ .notStartedValue ∧ (oldWaiters = .valueReadyValue → body.final)
  | .cas oldWaiters => body.started ∧ oldWaiters.Plain ∧ link = oldWaiters
  | .ready => body.final

/-- The word, the body and the awaiters agree. -/
structure Inv (s : St) : Prop where
  word : WordOk s.mWaiters s.body
  pcs : ∀ i, PcOk s.body (s.mNext i) (s.pc i)
  links : ∀ i, (s.mNext i).Plain
  list : ∃ l, ListOk s.mWaiters s.mNext l s.body ∧ l.Nodup ∧
    ∀ i, i ∈ l ↔ s.pc i = .queued ∧ i ∉ s.resumed
  starters : s.starters = s.writers.take 1 ∧ (s.body = .initial ↔ s.starters = [])
  resumed : s.resumed.Nodup ∧ (∀ i ∈ s.resumed, s.pc i = .queued) ∧
    (¬ s.body.final → s.resumed = [])

theorem inv_init : Inv init where
  word := rfl
  pcs _ := trivial
  links _ := ⟨nofun, nofun⟩
  list := ⟨[], rfl, .nil, fun _ => ⟨nofun, fun h => nomatch h.1⟩⟩
  starters := ⟨rfl, ⟨fun _ => rfl, fun _ => rfl⟩⟩
  resumed := ⟨.nil, nofun, fun _ => rfl⟩

theorem started_of_final {b : Body} (h : b.final) : b.started := by
  cases b with
  | initial => cases h
  | _ => trivial

theorem PcOk.mono {b b' : Body} {link : Ptr} {pc : Pc} (hs : b.started → b'.started)
    (hf : b.final → b'.final) (h : PcOk b link pc) : PcOk b' link pc := by
  cases pc with
  | idle | start => trivial
  | resuming | reload | queued => exact hs h
  | enqueue oldWaiters => exact ⟨hs h.1, h.2.1, fun he => hf (h.2.2 he)⟩
  | cas oldWaiters => exact ⟨hs h.1, h.2⟩
  | ready => exact hf h

/-- The word as an awaiter loads it, once the coroutine was started. -/
theorem WordOk.load {p : Ptr} {b : Body} (h : WordOk p b) (hs : b.started) :
    p ≠ .notStartedValue ∧ (p = .valueReadyValue → b.final) := by
  cases b with
  | initial => cases hs
  | running | completed => exact ⟨h.1, fun he => absurd he h.2⟩
  | walk _ | resume _ _ | done =>
    subst h
    exact ⟨nofun, fun _ => trivial⟩
  | fault => cases h

theorem WordOk.started {p : Ptr} {b : Body} (h : WordOk p b) (hne : p ≠ .notStartedValue) :
    b.started := by
  cases b with
  | initial => exact absurd h hne
  | _ => trivial

/-! ## The steps of `TryAwait` -/

section Awaiters

variable {s s' : St} {i : Nat} {pc : Pc}

/-- A move between places other than `queued` does not change who is queued. -/
theorem queued_iff (hpc : s.pc i ≠ .queued) (hne : pc ≠ .queued) (u : Nat) :
    Function.update s.pc i pc u = .queued ↔ s.pc u = .queued := by
  by_cases hu : u = i
  · subst hu
    simp [hne, hpc]
  · rw [Function.update_of_ne hu]

/-- The same when `i` becomes queued. -/
theorem queued_update (hpc : s.pc i ≠ .queued) (u : Nat) :
    Function.update s.pc i .queued u = .queued ↔ u = i ∨ s.pc u = .queued := by
  by_cases hu : u = i
  · subst hu
    simp
  · rw [Function.update_of_ne hu]
    simp [hu]

theorem pcs_update {body : Body} {mNext : Nat → Ptr} (h : ∀ u, PcOk body (mNext u) (s.pc u))
    (hok : PcOk body (mNext i) pc) (u : Nat) :
    PcOk body (mNext u) (Function.update s.pc i pc u) := by
  by_cases hu : u = i
  · subst hu
    rwa [Function.update_self]
  · rw [Function.update_of_ne hu]
    exact h u

theorem Inv.goto (h : Inv s) (hpc : s.pc i ≠ .queued) (hne : pc ≠ .queued)
    (hok : PcOk s.body (s.mNext i) pc) : Inv (s.goto i pc) := by
  have hqueued := queued_iff hpc hne
  obtain ⟨l, hl, hnodup, hmem⟩ := h.list
  obtain ⟨hres, hresq, hres0⟩ := h.resumed
  exact ⟨h.word, pcs_update h.pcs hok, h.links,
    ⟨l, hl, hnodup, fun u => (hmem u).trans (and_congr_left' (hqueued u).symm)⟩, h.starters,
    hres, fun u hu => (hqueued u).mpr (hresq u hu), hres0⟩

/-- The links of the waiters in the list are not written. -/
theorem ListOk.update {mWaiters : Ptr} {mNext : Nat → Ptr} {l : List Nat} {b : Body}
    (h : ListOk mWaiters mNext l b) (hi : i ∉ l) (p : Ptr) :
    ListOk mWaiters (Function.update mNext i p) l b := by
  have hcongr : ∀ {q : Option Nat} {l' : List Nat}, (∀ u ∈ l', u ∈ l) →
      Linked (fun u => (mNext u).waiter?) q l' →
      Linked (fun u => (Function.update mNext i p u).waiter?) q l' := by
    intro q l' hsub hlinked
    refine hlinked.congr fun u hu => ?_
    have hui : u ≠ i := fun he => hi (he ▸ hsub u hu)
    simp only [Function.update_of_ne hui]
  cases b with
  | initial | done | fault => exact h
  | running | completed => exact hcongr (fun _ hu => hu) h
  | walk w => exact ⟨hcongr (fun _ hu => hu) h.1, h.2⟩
  | resume j next =>
    obtain ⟨rest, rfl, hnext, hlinked⟩ := h
    have hji : j ≠ i := fun he => hi (he ▸ List.mem_cons_self)
    exact ⟨rest, rfl, (Function.update_of_ne hji ..).trans hnext,
      hcongr (fun u hu => List.mem_cons_of_mem j hu) hlinked⟩

/-- `waiter->mNext = oldWaiters`. -/
theorem Inv.link (h : Inv s) {oldWaiters : Ptr} (hpc : s.pc i = .enqueue oldWaiters)
    (hready : oldWaiters ≠ .valueReadyValue) :
    Inv { s.goto i (.cas oldWaiters) with mNext := Function.update s.mNext i oldWaiters } := by
  have hok := h.pcs i
  rw [hpc] at hok
  obtain ⟨hstarted, hns, -⟩ := hok
  have hnq : s.pc i ≠ .queued := by rw [hpc]; nofun
  have hqueued : ∀ u, Function.update s.pc i (.cas oldWaiters) u = .queued ↔ s.pc u = .queued :=
    queued_iff hnq nofun
  obtain ⟨l, hl, hnodup, hmem⟩ := h.list
  obtain ⟨hres, hresq, hres0⟩ := h.resumed
  have hil : i ∉ l := fun hc => hnq ((hmem i).mp hc).1
  refine ⟨h.word, fun u => ?_, fun u => ?_,
    ⟨l, hl.update hil oldWaiters, hnodup,
      fun u => (hmem u).trans (and_congr_left' (hqueued u).symm)⟩, h.starters,
    hres, fun u hu => (hqueued u).mpr (hresq u hu), hres0⟩
  · show PcOk s.body (Function.update s.mNext i oldWaiters u)
      (Function.update s.pc i (.cas oldWaiters) u)
    by_cases hu : u = i
    · subst hu
      rw [Function.update_self, Function.update_self]
      exact ⟨hstarted, ⟨hns, hready⟩, rfl⟩
    · rw [Function.update_of_ne hu, Function.update_of_ne hu]
      exact h.pcs u
  · show (Function.update s.mNext i oldWaiters u).Plain
    by_cases hu : u = i
    · subst hu
      rw [Function.update_self]
      exact ⟨hns, hready⟩
    · rw [Function.update_of_ne hu]
      exact h.links u

/-- The word holds its first value only while the coroutine is at its start. -/
theorem Inv.initial (h : Inv s) (hw : s.mWaiters = .notStartedValue) : s.body = .initial := by
  have hword := h.word
  rw [hw] at hword
  cases hb : s.body with
  | initial => rfl
  | running | completed =>
    rw [hb] at hword
    exact absurd rfl hword.1
  | walk _ | resume _ _ | done | fault =>
    rw [hb] at hword
    cases hword

/-- The first awaiter resumes the coroutine. -/
theorem Inv.begin (h : Inv s) (hpc : s.pc i = .start) (hw : s.mWaiters = .notStartedValue) :
    Inv { s.goto i .resuming with
      mWaiters := .startedNoWaitersValue
      body := if s.body = .initial then .running else .fault
      starters := s.starters ++ [i]
      writers := s.writers ++ [i] } := by
  have hb := h.initial hw
  have hnq : s.pc i ≠ .queued := by rw [hpc]; nofun
  have hqueued : ∀ u, Function.update s.pc i .resuming u = .queued ↔ s.pc u = .queued :=
    queued_iff hnq nofun
  obtain ⟨l, hl, hnodup, hmem⟩ := h.list
  obtain ⟨hres, hresq, hres0⟩ := h.resumed
  rw [hb] at hl hres0
  have hnil : s.starters = [] := h.starters.2.mp hb
  have hwriters : s.writers = [] := by
    have htake := h.starters.1
    rw [hnil] at htake
    simpa using htake.symm
  rw [if_pos hb]
  refine ⟨⟨nofun, nofun⟩, fun u => ?_, h.links, ⟨[], rfl, .nil, fun u => ?_⟩, ⟨?_, ?_⟩, hres,
    fun u hu => (hqueued u).mpr (hresq u hu), fun _ => hres0 id⟩
  · have hpcs : ∀ u, PcOk .running (s.mNext u) (s.pc u) := fun u =>
      (h.pcs u).mono (fun _ => trivial) (fun hf => by rw [hb] at hf; exact hf)
    have hok' : PcOk .running (s.mNext i) .resuming := trivial
    exact pcs_update hpcs hok' u
  · have hempty : l = [] := hl
    rw [hempty] at hmem
    exact (hmem u).trans (and_congr_left' (hqueued u).symm)
  · show s.starters ++ [i] = (s.writers ++ [i]).take 1
    rw [hnil, hwriters]
    rfl
  · show Body.running = .initial ↔ s.starters ++ [i] = []
    simp

/-- The waiter `i` becomes the head of the list. -/
theorem Inv.enqueued (h : Inv s) (hpc : s.pc i = .cas s.mWaiters) :
    Inv { s.goto i .queued with mWaiters := .waiter i, writers := s.writers ++ [i] } := by
  have hok := h.pcs i
  rw [hpc] at hok
  obtain ⟨hstarted, hplain, hlink⟩ := hok
  have hnq : s.pc i ≠ .queued := by rw [hpc]; nofun
  have hqueued := queued_update (s := s) (i := i) hnq
  obtain ⟨l, hl, hnodup, hmem⟩ := h.list
  obtain ⟨hres, hresq, hres0⟩ := h.resumed
  have hil : i ∉ l := fun hc => hnq ((hmem i).mp hc).1
  have hir : i ∉ s.resumed := fun hc => hnq (hresq i hc)
  have hopen : s.body = .running ∨ s.body = .completed := by
    have hword := h.word
    cases hb : s.body with
    | running => exact .inl rfl
    | completed => exact .inr rfl
    | initial =>
      rw [hb] at hword
      exact absurd hword hplain.1
    | walk _ | resume _ _ | done =>
      rw [hb] at hword
      exact absurd hword hplain.2
    | fault =>
      rw [hb] at hword
      cases hword
  have hlinked : Linked (fun u => (s.mNext u).waiter?) (Ptr.waiter i).waiter? (i :: l) := by
    refine ⟨rfl, ?_⟩
    show Linked _ (s.mNext i).waiter? l
    rw [hlink]
    rcases hopen with hb | hb <;> rw [hb] at hl <;> exact hl
  have hne : s.starters ≠ [] := fun h0 => by
    have hb := h.starters.2.mpr h0
    rcases hopen with hb' | hb' <;> cases hb.symm.trans hb'
  have htake : s.starters = (s.writers ++ [i]).take 1 := by
    have hold := h.starters.1
    cases hw : s.writers with
    | nil =>
      rw [hw] at hold
      exact absurd hold hne
    | cons w ws =>
      rw [hw] at hold
      exact hold
  have hqueuedOk : PcOk s.body (s.mNext i) .queued := hstarted
  refine ⟨?_, fun u => pcs_update h.pcs hqueuedOk u, h.links,
    ⟨i :: l, ?_, List.nodup_cons.mpr ⟨hil, hnodup⟩, fun u => ?_⟩, ⟨htake, h.starters.2⟩, hres,
    fun u hu => (hqueued u).mpr (.inr (hresq u hu)), hres0⟩
  · show WordOk (.waiter i) s.body
    rcases hopen with hb | hb <;> rw [hb] <;> exact ⟨nofun, nofun⟩
  · show ListOk (.waiter i) s.mNext (i :: l) s.body
    rcases hopen with hb | hb <;> rw [hb] <;> exact hlinked
  · show u ∈ i :: l ↔ Function.update s.pc i .queued u = .queued ∧ u ∉ s.resumed
    rw [List.mem_cons, hmem, hqueued]
    constructor
    · rintro (rfl | ⟨hu, hur⟩)
      · exact ⟨.inl rfl, hir⟩
      · exact ⟨.inr hu, hur⟩
    · rintro ⟨rfl | hu, hur⟩
      · exact .inl rfl
      · exact .inr ⟨hu, hur⟩

theorem Inv.tryAwait (h : Inv s) {spurious : Bool}
    (hs : SharedTask.tryAwait s i spurious = some s') : Inv s' := by
  have hok := h.pcs i
  cases hpc : s.pc i with
  | idle =>
    simp only [SharedTask.tryAwait, hpc, Option.some.injEq] at hs
    subst hs
    have hnq : s.pc i ≠ .queued := by rw [hpc]; nofun
    by_cases hw : s.mWaiters = .notStartedValue
    · rw [if_pos hw]
      exact h.goto hnq nofun trivial
    · rw [if_neg hw]
      have hstarted := h.word.started hw
      exact h.goto hnq nofun ⟨hstarted, h.word.load hstarted⟩
  | start =>
    simp only [SharedTask.tryAwait, hpc] at hs
    have hnq : s.pc i ≠ .queued := by rw [hpc]; nofun
    by_cases hw : s.mWaiters = .notStartedValue
    · rw [if_pos hw] at hs
      cases hs
      exact h.begin hpc hw
    · rw [if_neg hw] at hs
      cases hs
      have hstarted := h.word.started hw
      exact h.goto hnq nofun ⟨hstarted, h.word.load hstarted⟩
  | resuming =>
    simp only [SharedTask.tryAwait, hpc, Option.some.injEq] at hs
    subst hs
    rw [hpc] at hok
    exact h.goto (by rw [hpc]; nofun) nofun hok
  | reload =>
    simp only [SharedTask.tryAwait, hpc, Option.some.injEq] at hs
    subst hs
    rw [hpc] at hok
    exact h.goto (by rw [hpc]; nofun) nofun ⟨hok, h.word.load hok⟩
  | enqueue oldWaiters =>
    simp only [SharedTask.tryAwait, hpc] at hs
    rw [hpc] at hok
    by_cases hready : oldWaiters = .valueReadyValue
    · rw [if_pos hready] at hs
      cases hs
      exact h.goto (by rw [hpc]; nofun) nofun (hok.2.2 hready)
    · rw [if_neg hready] at hs
      cases hs
      exact h.link hpc hready
  | cas oldWaiters =>
    simp only [SharedTask.tryAwait, hpc] at hs
    rw [hpc] at hok
    by_cases hcas : spurious = false ∧ s.mWaiters = oldWaiters
    · rw [if_pos hcas] at hs
      cases hs
      exact h.enqueued (hcas.2 ▸ hpc)
    · rw [if_neg hcas] at hs
      cases hs
      exact h.goto (by rw [hpc]; nofun) nofun ⟨hok.1, h.word.load hok.1⟩
  | queued | ready =>
    simp only [SharedTask.tryAwait, hpc] at hs
    cases hs

end Awaiters

/-! ## The steps of the coroutine -/

section Body

variable {s s' : St}

/-- The coroutine moves on, with the same waiters to resume. -/
theorem Inv.runTo (h : Inv s) {p : Ptr} {b : Body} (hstarted : s.body ≠ .initial)
    (hb : b ≠ .initial) (hfinal : s.body.final → b.final) (hword : WordOk p b)
    (hlist : ∀ l, ListOk s.mWaiters s.mNext l s.body → ListOk p s.mNext l b) :
    Inv { s with mWaiters := p, body := b } := by
  obtain ⟨l, hl, hnodup, hmem⟩ := h.list
  obtain ⟨hres, hresq, hres0⟩ := h.resumed
  have hgo : b.started := by
    cases b with
    | initial => exact absurd rfl hb
    | _ => trivial
  exact ⟨hword, fun u => (h.pcs u).mono (fun _ => hgo) hfinal, h.links,
    ⟨l, hlist l hl, hnodup, hmem⟩,
    ⟨h.starters.1, fun h0 => absurd h0 hb, fun h0 => absurd (h.starters.2.mpr h0) hstarted⟩,
    hres, hresq, fun hf => hres0 fun hf' => hf (hfinal hf')⟩

/-- What is resumed after a link to `next`. -/
theorem afterResume_ok {next : Ptr} {mNext : Nat → Ptr} {l : List Nat} (hplain : next.Plain)
    (hl : Linked (fun i => (mNext i).waiter?) next.waiter? l) :
    ListOk .valueReadyValue mNext l (afterResume next) ∧
      WordOk .valueReadyValue (afterResume next) ∧ (afterResume next).final ∧
      afterResume next ≠ .initial := by
  cases next with
  | notStartedValue => exact absurd rfl hplain.1
  | valueReadyValue => exact absurd rfl hplain.2
  | startedNoWaitersValue => exact ⟨Linked.eq_nil hl, rfl, trivial, nofun⟩
  | waiter i => exact ⟨⟨hl, i, rfl⟩, rfl, trivial, nofun⟩

theorem Inv.runBody (h : Inv s) (hs : SharedTask.runBody s = some s') : Inv s' := by
  have hword := h.word
  obtain ⟨l, hl, hnodup, hmem⟩ := h.list
  cases hb : s.body with
  | initial | done | fault =>
    simp only [SharedTask.runBody, hb] at hs
    cases hs
  | running =>
    simp only [SharedTask.runBody, hb, Option.some.injEq] at hs
    subst hs
    rw [hb] at hword
    exact h.runTo (by rw [hb]; nofun) nofun (by rw [hb]; exact id) hword
      fun l hl => by rw [hb] at hl; exact hl
  | completed =>
    simp only [SharedTask.runBody, hb, Option.some.injEq] at hs
    subst hs
    rw [hb] at hword hl
    obtain ⟨-, hw, hf, hne⟩ := afterResume_ok hword hl
    refine h.runTo (by rw [hb]; nofun) hne (fun _ => hf) hw fun l hl => ?_
    rw [hb] at hl
    exact (afterResume_ok hword hl).1
  | walk w =>
    rw [hb] at hword hl
    obtain ⟨hlinked, i, rfl⟩ := hl
    obtain ⟨rest, rfl, hrest⟩ := Linked.exists_cons hlinked
    have hir : i ∉ s.resumed := ((hmem i).mp List.mem_cons_self).2
    simp only [SharedTask.runBody, hb, if_neg hir, Option.some.injEq] at hs
    subst hs
    refine h.runTo (by rw [hb]; nofun) nofun (fun _ => trivial) hword fun l' hl' => ?_
    rw [hb] at hl'
    obtain ⟨hlinked', -⟩ := hl'
    obtain ⟨rest', rfl, hrest'⟩ := Linked.exists_cons hlinked'
    exact ⟨rest', rfl, rfl, hrest'⟩
  | resume i next =>
    simp only [SharedTask.runBody, hb, Option.some.injEq] at hs
    subst hs
    rw [hb] at hword hl
    obtain ⟨rest, rfl, hnext, hrest⟩ := hl
    obtain ⟨hlist, hw, hf, hne⟩ := afterResume_ok (hnext ▸ h.links i) hrest
    obtain ⟨hirest, hnodup'⟩ := List.nodup_cons.mp hnodup
    obtain ⟨hiq, hir⟩ := (hmem i).mp List.mem_cons_self
    obtain ⟨hres, hresq, -⟩ := h.resumed
    have hstart : s.body ≠ .initial := by rw [hb]; nofun
    have hready : s.mWaiters = .valueReadyValue := hword
    refine ⟨hready ▸ hw, fun u => (h.pcs u).mono (fun _ => started_of_final hf) (fun _ => hf),
      h.links, ⟨rest, hready ▸ hlist, hnodup', fun u => ?_⟩,
      ⟨h.starters.1, fun h0 => absurd h0 hne, fun h0 => absurd (h.starters.2.mpr h0) hstart⟩,
      ?_, ?_, fun hnf => absurd hf hnf⟩
    · show u ∈ rest ↔ s.pc u = .queued ∧ u ∉ s.resumed ++ [i]
      have hu := hmem u
      rw [List.mem_cons] at hu
      rw [List.mem_append, List.mem_singleton]
      constructor
      · intro hrest
        obtain ⟨hq, hr⟩ := hu.mp (.inr hrest)
        refine ⟨hq, fun hor => hor.elim hr ?_⟩
        rintro rfl
        exact hirest hrest
      · rintro ⟨hq, hr⟩
        exact (hu.mpr ⟨hq, fun hc => hr (.inl hc)⟩).resolve_left fun he => hr (.inr he)
    · exact List.nodup_append.mpr ⟨hres, List.pairwise_singleton _ i, fun a ha b hbi => by
        rw [List.mem_singleton.mp hbi]
        rintro rfl
        exact hir ha⟩
    · intro u hu
      rcases List.mem_append.mp hu with hu | hu
      · exact hresq u hu
      · rw [List.mem_singleton.mp hu]
        exact hiq

end Body

/-! ## All runs -/

section Runs

variable {s : St}

theorem inv_reach (hs : sys.Reach Any s) : Inv s := by
  refine hs.invariant ?_ ?_
  · rintro s rfl
    exact inv_init
  · intro s l s' h _ hn
    cases l with
    | tryAwait i spurious => exact h.tryAwait hn
    | body => exact h.runBody hn

/-- Where the pointer to the first waiter that is still to be resumed is. -/
def St.pending (s : St) : Ptr :=
  match s.body with
  | .initial | .running | .completed => s.mWaiters
  | .walk p => p
  | .resume i _ => .waiter i
  | .done | .fault => .startedNoWaitersValue

/-- What the awaiters get. -/
structure Correct (s : St) : Prop where
  /-- The coroutine is resumed from its start once, by the first awaiter that changes the word, and
  before any `TryAwait` returns. -/
  started : s.starters = s.writers.take 1 ∧ (s.body = .initial ↔ s.starters = []) ∧
    ∀ i, s.pc i = .queued ∨ s.pc i = .ready → s.starters ≠ []
  /-- `TryAwait` returns false after the task has completed. -/
  ready : ∀ i, s.pc i = .ready → s.mWaiters = .valueReadyValue ∧ s.body.final
  /-- Only waiters in the list are resumed, each once, and after the task has completed. -/
  resumed : s.resumed.Nodup ∧ (∀ i ∈ s.resumed, s.pc i = .queued) ∧
    (¬ s.body.final → s.resumed = [])
  /-- The list that is left links the other waiters, and ends in null. -/
  list : ∃ l, Linked (fun i => (s.mNext i).waiter?) s.pending.waiter? l ∧ l.Nodup ∧
    (∀ i, i ∈ l ↔ s.pc i = .queued ∧ i ∉ s.resumed) ∧ (∀ i ∈ l, (s.mNext i).Plain)
  /-- When `FinalAwaiter` is through, every waiter in the list was resumed. -/
  done : s.body = .done → ∀ i, s.pc i = .queued → i ∈ s.resumed
  defined : s.body ≠ .fault
  /-- `FinalAwaiter` comes to its end. -/
  ends : s.body.final →
    ∃ n s', runLabels step s (List.replicate n .body) = some s' ∧ s'.body = .done

theorem Inv.pending (h : Inv s) {l : List Nat} (hl : ListOk s.mWaiters s.mNext l s.body) :
    Linked (fun i => (s.mNext i).waiter?) s.pending.waiter? l := by
  have hword := h.word
  unfold St.pending
  cases hb : s.body with
  | initial =>
    rw [hb] at hword hl
    have hw : s.mWaiters = .notStartedValue := hword
    have hnil : l = [] := hl
    rw [hw, hnil]
    rfl
  | running | completed =>
    rw [hb] at hl
    exact hl
  | walk p =>
    rw [hb] at hl
    exact hl.1
  | resume i next =>
    rw [hb] at hl
    obtain ⟨rest, rfl, hnext, hrest⟩ := hl
    refine ⟨rfl, ?_⟩
    show Linked _ (s.mNext i).waiter? rest
    rwa [hnext]
  | done | fault =>
    rw [hb] at hl
    have hnil : l = [] := hl
    rw [hnil]
    rfl

/-- `FinalAwaiter` resumes the waiters that are left, one after the other. -/
theorem Inv.ends (h : Inv s) (hf : s.body.final) :
    ∃ n s', runLabels step s (List.replicate n .body) = some s' ∧ s'.body = .done := by
  obtain ⟨l, hl, -, -⟩ := h.list
  induction l generalizing s with
  | nil =>
    cases hb : s.body with
    | done => exact ⟨0, s, rfl, hb⟩
    | walk p =>
      rw [hb] at hl
      obtain ⟨hlinked, i, rfl⟩ := hl
      cases hlinked
    | resume i next =>
      rw [hb] at hl
      obtain ⟨rest, hnil, -⟩ := hl
      cases hnil
    | initial | running | completed | fault =>
      rw [hb] at hf
      cases hf
  | cons i rest ih =>
    -- the waiter at the head is resumed, and the loop goes on with the rest
    have hresume : ∀ {s : St} {next : Ptr}, Inv s → s.body = .resume i next →
        ListOk s.mWaiters s.mNext (i :: rest) s.body →
        ∃ n s', runLabels step s (List.replicate n .body) = some s' ∧ s'.body = .done := by
      intro s next h hb hl
      have hword := h.word
      rw [hb] at hword hl
      obtain ⟨rest', heq, hnext, hrest⟩ := hl
      cases heq
      obtain ⟨hlist, -, hf, -⟩ := afterResume_ok (hnext ▸ h.links i) hrest
      have hready : s.mWaiters = .valueReadyValue := hword
      have hs : SharedTask.runBody s =
          some { s with resumed := s.resumed ++ [i], body := afterResume next } := by
        simp only [SharedTask.runBody, hb]
      obtain ⟨n, s', hrun, hdone⟩ := ih (h.runBody hs) hf (hready ▸ hlist)
      exact ⟨n + 1, s', Option.bind_eq_some_iff.mpr ⟨_, hs, hrun⟩, hdone⟩
    cases hb : s.body with
    | resume j next =>
      have hj := hl
      rw [hb] at hj
      obtain ⟨rest', heq, -⟩ := hj
      cases heq
      exact hresume h hb hl
    | walk p =>
      rw [hb] at hl
      obtain ⟨hlinked, j, rfl⟩ := hl
      obtain ⟨rest', heq, hrest⟩ := Linked.exists_cons hlinked
      cases heq
      obtain ⟨l', hl', -, hmem⟩ := h.list
      rw [hb] at hl'
      obtain ⟨l'', rfl, -⟩ := Linked.exists_cons hl'.1
      have hir : i ∉ s.resumed := ((hmem i).mp List.mem_cons_self).2
      have hs : SharedTask.runBody s = some { s with body := .resume i (s.mNext i) } := by
        simp only [SharedTask.runBody, hb, if_neg hir]
      obtain ⟨n, s', hrun, hdone⟩ := hresume (h.runBody hs) rfl ⟨rest, rfl, rfl, hrest⟩
      exact ⟨n + 1, s', Option.bind_eq_some_iff.mpr ⟨_, hs, hrun⟩, hdone⟩
    | done =>
      rw [hb] at hl
      cases hl
    | initial | running | completed | fault =>
      rw [hb] at hf
      cases hf

theorem Inv.correct (h : Inv s) : Correct s := by
  obtain ⟨l, hl, hnodup, hmem⟩ := h.list
  have hpcs := h.pcs
  refine ⟨⟨h.starters.1, h.starters.2, fun i hi h0 => ?_⟩, fun i hi => ?_, h.resumed,
    ⟨l, h.pending hl, hnodup, hmem, fun i _ => h.links i⟩, fun hdone i hi => ?_, fun hf => ?_,
    h.ends⟩
  · have hok := hpcs i
    have hstarted : s.body.started := by
      rcases hi with hi | hi <;> rw [hi] at hok
      · exact hok
      · exact started_of_final hok
    rw [h.starters.2.mpr h0] at hstarted
    exact hstarted
  · have hf := hpcs i
    rw [hi] at hf
    have hword := h.word
    refine ⟨?_, hf⟩
    have hfinal : s.body.final := hf
    cases hb : s.body with
    | walk _ | resume _ _ | done =>
      rw [hb] at hword
      exact hword
    | initial | running | completed | fault =>
      rw [hb] at hfinal
      cases hfinal
  · rw [hdone] at hl
    have hnil : l = [] := hl
    by_contra hir
    have hil := (hmem i).mpr ⟨hi, hir⟩
    rw [hnil] at hil
    cases hil
  · have hword := h.word
    rw [hf] at hword
    exact hword

/-- **The shared coroutine is started once; an awaiter that does not find it completed is resumed
once when it is; and the list of waiters ends in null.** -/
theorem sharedTask_correct (s : St) (hs : sys.Reach Any s) : Correct s := (inv_reach hs).correct

/-- The first awaiter starts the coroutine and is queued; a second one fails once and is queued as
well; both are resumed, and a third one finds the task completed. -/
theorem sharedTask_correct_three : ∃ s : St, s.resumed = [1, 0] ∧ s.pc 2 = .ready ∧ Correct s := by
  have hr : ∀ s, runLabels step init [.tryAwait 0 false, .tryAwait 0 false, .tryAwait 0 false,
      .tryAwait 1 false, .tryAwait 1 false, .tryAwait 0 false, .tryAwait 0 false,
      .tryAwait 0 false, .tryAwait 1 false, .tryAwait 1 false, .tryAwait 1 false, .body, .body,
      .body, .body, .body, .body, .tryAwait 2 false, .tryAwait 2 false] = some s → Correct s :=
    fun s hs => sharedTask_correct s
      (reach_runLabels (fun _ => True) (.init rfl) _ (fun _ _ => trivial) hs)
  exact ⟨_, rfl, rfl, hr _ rfl⟩

end Runs

end SharedTask

end AsyncLib
