import AsyncLib.Lib.Linked
import AsyncLib.Lib.System

/-!
# The waiter list of an `AsyncValue`

`async/context/async_value.{h,cpp}`: `AndThen`, `EnqueueWaiter`, `NotifyAvailable` and `RunWaiters`
on the word `mWaitersAndState`, under sequentially consistent interleaving of the single loads,
compare-exchanges, exchanges and accesses to `mNext`. Any number of threads call `AndThen`, each
with its own waiter and its own `NotifierListNode`; one call of `NotifyAvailable` is made.

* `step`: one atomic step. A weak compare-exchange may fail although the words agree.
* `Inv`: before the exchange of `NotifyAvailable` the word's list links exactly the waiters of the
  calls that returned, and nothing has run. After it the list is empty, and the waiters that
  returned calls left behind have run or are on the rest of the list that the notifier walks.
* `waiters_correct`: the contract of the header comment, in every reachable state.
-/

namespace AsyncLib

namespace AsyncValue

/-- `AsyncValue::State::StateEnum`. -/
inductive State where
  | kUnconstructed
  | kConstructed
  | kConcrete
  | kError
  deriving DecidableEq, Repr

/-- `State::IsAvailable`. -/
def State.isAvailable : State → Bool
  | .kConcrete | .kError => true
  | .kUnconstructed | .kConstructed => false

end AsyncValue

namespace Waiters

open AsyncValue Sys

/-- A call of `AndThen`, with its waiter and its list node. -/
abbrev Tid := Nat

/-- `WaitersAndState`: the head of the waiter list and the state, in one word. -/
structure Word where
  pointer : Option Tid
  state : State
  deriving DecidableEq, Repr

/-- Where a thread is in `RunWaiters`. -/
inductive Walk where
  /-- At the loop condition. -/
  | head (list : Option Tid)
  /-- The notification of `node` has run, its `mNext` is read next. -/
  | ran (node : Tid)
  deriving DecidableEq, Repr

/-- Where a call of `AndThen` is. -/
inductive Pc where
  /-- Before its load of the word. -/
  | idle
  /-- The loaded word was available: `waiter()`. -/
  | inline
  /-- At the start of `EnqueueWaiter`, with the loaded word. -/
  | enqueue (old : Word)
  /-- At the compare-exchange from `old` to the node with `oldState`. -/
  | cas (old : Word) (oldState : State)
  /-- The compare-exchange failed and stored the current word in `old`. -/
  | failed (old : Word) (oldState : State)
  /-- In `RunWaiters` on the own node. -/
  | walk (w : Walk)
  | returned
  deriving DecidableEq, Repr

/-- Where the call of `NotifyAvailable` is. -/
inductive NotifyPc where
  /-- Before its exchange. -/
  | idle
  | walk (w : Walk)
  | returned
  deriving DecidableEq, Repr

/-- The word, the link fields, how often each waiter ran, and the threads' places. -/
structure St where
  word : Word
  next : Tid → Option Tid
  ran : Tid → Nat
  pc : Tid → Pc
  notify : NotifyPc

/-- Who moves. `spurious` lets a weak compare-exchange fail. -/
inductive Label where
  | andThen (t : Tid) (spurious : Bool)
  | notify
  deriving DecidableEq, Repr

/-- The waiter of `t` runs. -/
def St.runWaiter (s : St) (t : Tid) : St := { s with ran := Function.update s.ran t (s.ran t + 1) }

/-- One step of `RunWaiters`; `none` when the loop is left. -/
def runWaiters (s : St) : Walk → St × Option Walk
  | .head none => (s, none)
  | .head (some node) => (s.runWaiter node, some (.ran node))
  | .ran node => (s, some (.head (s.next node)))

/-- Call `t` moves to `pc`. -/
def St.goto (s : St) (t : Tid) (pc : Pc) : St := { s with pc := Function.update s.pc t pc }

/-- `node->mNext = q`. -/
def St.link (s : St) (t : Tid) (q : Option Tid) : St :=
  { s with next := Function.update s.next t q }

/-- One step of `AndThen`. -/
def andThenStep (s : St) (t : Tid) (spurious : Bool) : Option St :=
  match s.pc t with
  | .idle =>
    some (s.goto t (if s.word.state.isAvailable then .inline else .enqueue s.word))
  | .inline => some ((s.runWaiter t).goto t .returned)
  | .enqueue old => some ((s.link t old.pointer).goto t (.cas old old.state))
  | .cas old oldState =>
    if !spurious && decide (s.word = old) then
      some ({ s with word := ⟨some t, oldState⟩ }.goto t .returned)
    else some (s.goto t (.failed s.word oldState))
  | .failed old oldState =>
    if old.state.isAvailable then some ((s.link t none).goto t (.walk (.head (some t))))
    else some ((s.link t old.pointer).goto t (.cas old oldState))
  | .walk w =>
    match runWaiters s w with
    | (s', some w') => some (s'.goto t (.walk w'))
    | (s', none) => some (s'.goto t .returned)
  | .returned => none

/-- One step of `NotifyAvailable(avail)`. -/
def notifyStep (avail : State) (s : St) : Option St :=
  match s.notify with
  | .idle => some { s with word := ⟨none, avail⟩, notify := .walk (.head s.word.pointer) }
  | .walk w =>
    match runWaiters s w with
    | (s', some w') => some { s' with notify := .walk w' }
    | (s', none) => some { s' with notify := .returned }
  | .returned => none

/-- One atomic step. -/
def step (avail : State) (s : St) : Label → Option St
  | .andThen t spurious => andThenStep s t spurious
  | .notify => notifyStep avail s

/-- A value in state `st`, no call made yet. -/
def start (st : State) : St := ⟨⟨none, st⟩, fun _ => none, fun _ => 0, fun _ => .idle, .idle⟩

/-- The runs of any number of `AndThen` calls and one `NotifyAvailable(avail)`. -/
def sys (st avail : State) : Sys St Label := ofFun (start st) (step avail)

/-- Every call that was made has returned. -/
def St.AllReturned (s : St) : Prop :=
  (∀ t, s.pc t = .idle ∨ s.pc t = .returned) ∧ s.notify = .returned

/-! ## The invariant -/

/-- What is known of call `t` at `pc`: `av` says whether the word is available, `nx` is the link of
its node, `rn` how often its waiter ran. A returned call is described by `Inv`. -/
def PcOk (st : State) (av : Bool) (nx : Option Tid) (rn : Nat) (t : Tid) : Pc → Prop
  | .idle => rn = 0
  | .inline => av = true ∧ rn = 0
  | .enqueue old => old.state = st ∧ rn = 0
  | .cas old oldState => old.state = st ∧ oldState = st ∧ nx = old.pointer ∧ rn = 0
  | .failed old oldState =>
    oldState = st ∧ (old.state = st ∨ av = true ∧ old.state.isAvailable = true) ∧ rn = 0
  | .walk (.head (some node)) => node = t ∧ nx = none ∧ av = true ∧ rn = 0
  | .walk (.ran node) => node = t ∧ nx = none ∧ av = true ∧ rn = 1
  | .walk (.head none) => av = true ∧ rn = 1
  | .returned => True

/-- The notifier has `l` still to run. -/
def NotifyOk (s : St) (l : List Tid) : NotifyPc → Prop
  | .idle => False
  | .walk (.head p) => Linked s.next p l
  | .walk (.ran node) => Linked s.next (s.next node) l ∧ s.pc node = .returned ∧ s.ran node = 1
  | .returned => l = []

/-- Before the exchange of `NotifyAvailable`. -/
structure Before (st : State) (s : St) : Prop where
  notify : s.notify = .idle
  state : s.word.state = st
  ran : ∀ t, s.ran t = 0
  list : ∃ l, Linked s.next s.word.pointer l ∧ l.Nodup ∧ ∀ t, t ∈ l ↔ s.pc t = .returned

/-- After it. -/
structure After (avail : State) (s : St) : Prop where
  word : s.word = ⟨none, avail⟩
  list : ∃ l, NotifyOk s l s.notify ∧ l.Nodup ∧ (∀ t ∈ l, s.pc t = .returned ∧ s.ran t = 0) ∧
    ∀ t, s.pc t = .returned → t ∈ l ∨ s.ran t = 1

/-- The invariant (module doc). -/
structure Inv (st avail : State) (s : St) : Prop where
  pcs : ∀ t, PcOk st s.word.state.isAvailable (s.next t) (s.ran t) t (s.pc t)
  phase : Before st s ∨ After avail s

theorem PcOk.mono {st : State} {av av' : Bool} {nx : Option Tid} {rn : Nat} {t : Tid} {pc : Pc}
    (ha : av = true → av' = true) (h : PcOk st av nx rn t pc) : PcOk st av' nx rn t pc := by
  match pc, h with
  | .idle, h => exact h
  | .inline, ⟨h1, h2⟩ => exact ⟨ha h1, h2⟩
  | .enqueue _, h => exact h
  | .cas _ _, h => exact h
  | .failed _ _, ⟨h1, h2, h3⟩ => exact ⟨h1, h2.imp id fun h => ⟨ha h.1, h.2⟩, h3⟩
  | .walk (.head (some _)), ⟨h1, h2, h3, h4⟩ => exact ⟨h1, h2, ha h3, h4⟩
  | .walk (.head none), ⟨h1, h2⟩ => exact ⟨ha h1, h2⟩
  | .walk (.ran _), ⟨h1, h2, h3, h4⟩ => exact ⟨h1, h2, ha h3, h4⟩
  | .returned, _ => trivial

theorem start_inv (st avail : State) : Inv st avail (start st) where
  pcs _ := rfl
  phase := .inl ⟨rfl, rfl, fun _ => rfl, [], .nil _, .nil, fun t => by simp [start]⟩

section Steps

variable {st avail : State} {s : St} {t : Tid}

/-- The word is available exactly after the exchange. -/
theorem Inv.after (hst : st.isAvailable = false) (h : Inv st avail s)
    (ha : s.word.state.isAvailable = true) : After avail s := by
  refine h.phase.resolve_left fun hb => ?_
  rw [hb.state, hst] at ha
  cases ha

/-- A step of call `t` that keeps the word and the waiters' counts and does not return. -/
theorem Inv.move (h : Inv st avail s) {pc : Pc} {q : Option Tid} (hpc : s.pc t ≠ .returned)
    (hne : pc ≠ .returned) (hok : PcOk st s.word.state.isAvailable q (s.ran t) t pc) :
    Inv st avail ((s.link t q).goto t pc) := by
  have hp : ∀ u, (Function.update s.pc t pc u = .returned) ↔ s.pc u = .returned := by
    intro u
    by_cases hu : u = t
    · subst hu; simp [hne, hpc]
    · rw [Function.update_of_ne hu]
  refine ⟨fun u => ?_, ?_⟩
  · by_cases hu : u = t
    · subst hu
      simpa [St.link, St.goto] using hok
    · simpa [St.link, St.goto, Function.update_of_ne hu] using h.pcs u
  · rcases h.phase with ⟨h1, h2, h3, l, hl, hn, hm⟩ | ⟨h1, l, hl, hn, hm, hr⟩
    · have ht : t ∉ l := fun hc => hpc ((hm t).mp hc)
      exact .inl ⟨h1, h2, h3, l, hl.update q ht, hn, fun u => (hm u).trans (hp u).symm⟩
    · have ht : t ∉ l := fun hc => hpc (hm t hc).1
      refine .inr ⟨h1, l, ?_, hn, fun u hu => ⟨(hp u).mpr (hm u hu).1, (hm u hu).2⟩,
        fun u hu => hr u ((hp u).mp hu)⟩
      simp only [St.link, St.goto]
      -- the node that the notifier just ran is not `t`'s: its call has returned
      match hn : s.notify, hl with
      | .walk (.head p), hl => exact Linked.update q ht hl
      | .walk (.ran node), ⟨hl, hnp, hnr⟩ =>
        have hnt : node ≠ t := fun he => hpc (he ▸ hnp)
        refine ⟨?_, (hp node).mpr hnp, hnr⟩
        simp only [Function.update_of_ne hnt]
        exact hl.update q ht
      | .returned, hl => exact hl

/-- The same without a write to the link. -/
theorem Inv.goto (h : Inv st avail s) {pc : Pc} (hpc : s.pc t ≠ .returned) (hne : pc ≠ .returned)
    (hok : PcOk st s.word.state.isAvailable (s.next t) (s.ran t) t pc) :
    Inv st avail (s.goto t pc) := by
  have := h.move hpc hne hok
  simpa only [St.link, Function.update_eq_self] using this

/-- Call `t` runs its own waiter and moves to `pc`. -/
theorem Inv.runOwn (hst : st.isAvailable = false) (h : Inv st avail s) {pc : Pc}
    (hpc : s.pc t ≠ .returned) (ha : s.word.state.isAvailable = true) (hr0 : s.ran t = 0)
    (hok : PcOk st true (s.next t) 1 t pc) : Inv st avail ((s.runWaiter t).goto t pc) := by
  obtain ⟨hw, l, hl, hn, hm, hr⟩ := h.after hst ha
  have ht : t ∉ l := fun hc => hpc (hm t hc).1
  refine ⟨fun u => ?_, .inr ⟨hw, l, ?_, hn, fun u hu => ?_, fun u hu => ?_⟩⟩
  · by_cases hu : u = t
    · subst hu
      simpa [St.runWaiter, St.goto, ha, hr0] using hok
    · simpa [St.runWaiter, St.goto, Function.update_of_ne hu] using h.pcs u
  · simp only [St.runWaiter, St.goto]
    match hn : s.notify, hl with
    | .walk (.head p), hl => exact hl
    | .walk (.ran node), ⟨hl, hnp, hnr⟩ =>
      have hnt : node ≠ t := fun he => hpc (he ▸ hnp)
      exact ⟨hl, by simpa [Function.update_of_ne hnt] using hnp,
        by simpa [Function.update_of_ne hnt] using hnr⟩
    | .returned, hl => exact hl
  · have hut : u ≠ t := fun he => ht (he ▸ hu)
    simpa [St.runWaiter, St.goto, Function.update_of_ne hut] using hm u hu
  · by_cases hut : u = t
    · subst hut
      simp [St.runWaiter, St.goto, hr0]
    · simp only [St.runWaiter, St.goto, Function.update_of_ne hut] at hu ⊢
      exact hr u hu

/-- Call `t` returns after its waiter ran. -/
theorem Inv.return (hst : st.isAvailable = false) (h : Inv st avail s) (hpc : s.pc t ≠ .returned)
    (ha : s.word.state.isAvailable = true) (hr1 : s.ran t = 1) :
    Inv st avail (s.goto t .returned) := by
  obtain ⟨hw, l, hl, hn, hm, hr⟩ := h.after hst ha
  have ht : t ∉ l := fun hc => hpc (hm t hc).1
  refine ⟨fun u => ?_, .inr ⟨hw, l, ?_, hn, fun u hu => ?_, fun u hu => ?_⟩⟩
  · by_cases hu : u = t
    · subst hu
      simp [St.goto, PcOk]
    · simpa [St.goto, Function.update_of_ne hu] using h.pcs u
  · simp only [St.goto]
    match hn : s.notify, hl with
    | .walk (.head p), hl => exact hl
    | .walk (.ran node), ⟨hl, hnp, hnr⟩ =>
      have hnt : node ≠ t := fun he => hpc (he ▸ hnp)
      exact ⟨hl, by simpa [Function.update_of_ne hnt] using hnp, hnr⟩
    | .returned, hl => exact hl
  · have hut : u ≠ t := fun he => ht (he ▸ hu)
    simpa [St.goto, Function.update_of_ne hut] using hm u hu
  · by_cases hut : u = t
    · subst hut
      exact .inr hr1
    · simp only [St.goto, Function.update_of_ne hut] at hu ⊢
      exact hr u hu

/-- The compare-exchange of call `t` succeeds: its node becomes the head of the list. -/
theorem Inv.enqueued (hav : avail.isAvailable = true) (hst : st.isAvailable = false)
    (h : Inv st avail s) (hpc : s.pc t = .cas s.word st) :
    Inv st avail ({ s with word := ⟨some t, st⟩ }.goto t .returned) := by
  have hp := h.pcs t
  rw [hpc] at hp
  obtain ⟨hs, -, hnx, -⟩ := hp
  -- the expected word is unavailable, so the exchange has not happened
  have hb : Before st s := h.phase.resolve_right fun hA => by
    rw [hA.word] at hs
    simp only at hs
    rw [hs, hst] at hav
    cases hav
  obtain ⟨h1, -, h3, l, hl, hn, hm⟩ := hb
  have ht : t ∉ l := fun hc => by
    have := (hm t).mp hc
    rw [hpc] at this
    cases this
  refine ⟨fun u => ?_, .inl ⟨h1, rfl, h3, t :: l, ⟨rfl, by simpa [St.goto, hnx] using hl⟩,
    List.nodup_cons.mpr ⟨ht, hn⟩, fun u => ?_⟩⟩
  · by_cases hu : u = t
    · subst hu
      simp [St.goto, PcOk]
    · have := h.pcs u
      rw [hs] at this
      simpa [St.goto, Function.update_of_ne hu] using this
  · by_cases hu : u = t
    · subst hu
      simp [St.goto]
    · simpa [St.goto, Function.update_of_ne hu, hu] using hm u

theorem Inv.andThen (hav : avail.isAvailable = true) (hst : st.isAvailable = false)
    (h : Inv st avail s) {spurious : Bool} {s' : St} (hs : andThenStep s t spurious = some s') :
    Inv st avail s' := by
  have hp := h.pcs t
  have hstate : s.word.state.isAvailable = false → s.word.state = st := fun hn =>
    (h.phase.resolve_right fun hA => by rw [hA.word, hav] at hn; cases hn).state
  unfold andThenStep at hs
  cases hpc : s.pc t with
  | idle =>
    simp only [hpc, Option.some.injEq, PcOk] at hs hp
    subst hs
    split
    · rename_i ha
      exact h.goto (by simp [hpc]) (by simp) ⟨ha, hp⟩
    · rename_i ha
      exact h.goto (by simp [hpc]) (by simp) ⟨hstate (by simpa using ha), hp⟩
  | inline =>
    simp only [hpc, Option.some.injEq, PcOk] at hs hp
    subst hs
    exact h.runOwn hst (by simp [hpc]) hp.1 hp.2 trivial
  | enqueue old =>
    simp only [hpc, Option.some.injEq, PcOk] at hs hp
    subst hs
    exact h.move (by simp [hpc]) (by simp) ⟨hp.1, hp.1, rfl, hp.2⟩
  | cas old oldState =>
    simp only [hpc, PcOk] at hs hp
    obtain ⟨h1, rfl, h3, h4⟩ := hp
    split at hs
    · rename_i hc
      simp only [Bool.and_eq_true, decide_eq_true_eq] at hc
      cases hs
      exact h.enqueued hav hst (by rw [hpc, hc.2])
    · cases hs
      refine h.goto (by simp [hpc]) (by simp) ⟨rfl, ?_, h4⟩
      by_cases ha : s.word.state.isAvailable = true
      · exact .inr ⟨ha, ha⟩
      · exact .inl (hstate (by simpa using ha))
  | failed old oldState =>
    simp only [hpc, PcOk] at hs hp
    obtain ⟨rfl, h2, h3⟩ := hp
    split at hs
    · rename_i ha
      cases hs
      have hw : s.word.state.isAvailable = true := by
        rcases h2 with h2 | h2
        · rw [h2, hst] at ha; cases ha
        · exact h2.1
      exact h.move (by simp [hpc]) (by simp) ⟨rfl, rfl, hw, h3⟩
    · rename_i ha
      cases hs
      have hold : old.state = oldState := h2.resolve_right fun hc => ha hc.2
      exact h.move (by simp [hpc]) (by simp) ⟨hold, rfl, rfl, h3⟩
  | walk w =>
    match w, hpc with
    | .head (some node), hpc =>
      simp only [hpc, runWaiters, Option.some.injEq, PcOk] at hs hp
      obtain ⟨rfl, h2, h3, h4⟩ := hp
      subst hs
      exact h.runOwn hst (by simp [hpc]) h3 h4 ⟨rfl, h2, rfl, rfl⟩
    | .head none, hpc =>
      simp only [hpc, runWaiters, Option.some.injEq, PcOk] at hs hp
      subst hs
      exact h.return hst (by simp [hpc]) hp.1 hp.2
    | .ran node, hpc =>
      simp only [hpc, runWaiters, Option.some.injEq, PcOk] at hs hp
      obtain ⟨rfl, h2, h3, h4⟩ := hp
      subst hs
      rw [h2]
      exact h.goto (by simp [hpc]) (by simp) ⟨h3, h4⟩
  | returned => simp [hpc] at hs

theorem Inv.notified (hav : avail.isAvailable = true) (h : Inv st avail s) {s' : St} (hs : notifyStep avail s = some s') : Inv st avail s' := by
  unfold notifyStep at hs
  rcases h.phase with ⟨h1, h2, h3, l, hl, hn, hm⟩ | ⟨hw, l, hl, hn, hm, hr⟩
  · -- the exchange: the list of the word becomes the notifier's
    simp only [h1, Option.some.injEq] at hs
    subst hs
    refine ⟨fun u => ?_, .inr ⟨rfl, l, hl, hn, fun u hu => ⟨(hm u).mp hu, h3 u⟩,
      fun u hu => .inl ((hm u).mpr hu)⟩⟩
    exact (h.pcs u).mono fun _ => hav
  · have ha : s.word.state.isAvailable = true := by rw [hw]; exact hav
    match hno : s.notify, hl with
    | .walk (.head none), hl =>
      simp only [hno, runWaiters, Option.some.injEq] at hs
      subst hs
      exact ⟨h.pcs, .inr ⟨hw, [], rfl, .nil, fun u hu => absurd hu (by simp),
        fun u hu => by simpa [Linked.eq_nil hl] using hr u hu⟩⟩
    | .walk (.head (some node)), hl =>
      simp only [hno, runWaiters, Option.some.injEq] at hs
      subst hs
      obtain ⟨ns, rfl, hl'⟩ := Linked.exists_cons hl
      obtain ⟨hnm, hnd⟩ := List.nodup_cons.mp hn
      obtain ⟨hnp, hn0⟩ := hm node (by simp)
      refine ⟨fun u => ?_, .inr ⟨hw, ns, ⟨hl', hnp, by simp [St.runWaiter, hn0]⟩, hnd,
        fun u hu => ?_, fun u hu => ?_⟩⟩
      · by_cases hu : u = node
        · subst hu
          simp [St.runWaiter, hnp, PcOk]
        · simpa [St.runWaiter, Function.update_of_ne hu] using h.pcs u
      · have hun : u ≠ node := fun he => hnm (he ▸ hu)
        simpa [St.runWaiter, Function.update_of_ne hun] using hm u (by simp [hu])
      · by_cases hun : u = node
        · subst hun
          simp [St.runWaiter, hn0]
        · simpa [St.runWaiter, Function.update_of_ne hun, hun] using hr u hu
    | .walk (.ran node), ⟨hl, _, _⟩ =>
      simp only [hno, runWaiters, Option.some.injEq] at hs
      subst hs
      exact ⟨h.pcs, .inr ⟨hw, l, hl, hn, hm, hr⟩⟩
    | .returned, _ => simp [hno] at hs

theorem Inv.preserved (hav : avail.isAvailable = true) (hst : st.isAvailable = false)
    (h : Inv st avail s) {l : Label} {s' : St} (hs : step avail s l = some s') :
    Inv st avail s' := by
  cases l with
  | andThen t spurious => exact h.andThen hav hst hs
  | notify => exact h.notified hav hs

theorem runWaiters_notify (s : St) (w : Walk) : (runWaiters s w).1.notify = s.notify := by
  match w with
  | .head none => rfl
  | .head (some _) => rfl
  | .ran _ => rfl

/-- A call of `AndThen` does not touch the notifier. -/
theorem andThenStep_notify {spurious : Bool} {s' : St} (hs : andThenStep s t spurious = some s') :
    s'.notify = s.notify := by
  unfold andThenStep at hs
  cases hpc : s.pc t with
  | walk w =>
    have hn := runWaiters_notify s w
    simp only [hpc] at hs
    split at hs <;> rename_i heq <;> cases hs <;> rw [heq] at hn <;> exact hn
  | cas old oldState =>
    simp only [hpc] at hs
    split at hs <;> cases hs <;> rfl
  | failed old oldState =>
    simp only [hpc] at hs
    split at hs <;> cases hs <;> rfl
  | returned => simp [hpc] at hs
  | idle => simp only [hpc, Option.some.injEq] at hs; subst hs; rfl
  | inline => simp only [hpc, Option.some.injEq] at hs; subst hs; rfl
  | enqueue old => simp only [hpc, Option.some.injEq] at hs; subst hs; rfl

theorem notifyStep_ne_idle {s' : St} (hs : notifyStep avail s = some s') : s'.notify ≠ .idle := by
  unfold notifyStep at hs
  cases hn : s.notify with
  | idle => simp only [hn, Option.some.injEq] at hs; subst hs; simp
  | walk w => simp only [hn] at hs; split at hs <;> cases hs <;> simp
  | returned => simp [hn] at hs

/-- An available value stays as it is. -/
theorem Inv.stays (hav : avail.isAvailable = true) (hst : st.isAvailable = false)
    (h : Inv st avail s) (ha : s.word.state.isAvailable = true) {l : Label} {s' : St}
    (hs : step avail s l = some s') : s'.word.state = s.word.state := by
  have hA := h.after hst ha
  have hne : s.notify ≠ .idle := fun hi => by
    obtain ⟨_, hl, _⟩ := hA.list
    rw [hi] at hl
    exact hl
  have hne' : s'.notify ≠ .idle := by
    cases l with
    | andThen t spurious => rw [andThenStep_notify hs]; exact hne
    | notify => exact notifyStep_ne_idle hs
  have hA' : After avail s' := (h.preserved hav hst hs).phase.resolve_left fun hb => hne' hb.notify
  rw [hA.word, hA'.word]

/-- Nothing has run while the value is unavailable. -/
theorem Inv.ran_pos (h : Inv st avail s) (hav : avail.isAvailable = true) (hr : 0 < s.ran t) :
    s.word.state.isAvailable = true := by
  rcases h.phase with hb | hA
  · rw [hb.ran t] at hr; exact absurd hr (Nat.lt_irrefl 0)
  · rw [hA.word]; exact hav

/-- No waiter runs twice. -/
theorem Inv.ran_le (h : Inv st avail s) : s.ran t ≤ 1 := by
  rcases h.phase with hb | hA
  · rw [hb.ran t]; exact Nat.zero_le 1
  · have hp := h.pcs t
    match hpc : s.pc t with
    | .idle | .enqueue _ | .inline | .cas _ _ | .failed _ _ | .walk (.head none)
    | .walk (.head (some _)) | .walk (.ran _) =>
      rw [hpc] at hp
      simp only [PcOk] at hp
      omega
    | .returned =>
      obtain ⟨l, -, -, hm, hr⟩ := hA.list
      rcases hr t hpc with hl | h1
      · rw [(hm t hl).2]; exact Nat.zero_le 1
      · exact Nat.le_of_eq h1

/-- When all calls have returned, the waiter of each call that was made has run. -/
theorem Inv.ran_of_returned (h : Inv st avail s) (hall : s.AllReturned) (hpc : s.pc t = .returned) :
    s.ran t = 1 := by
  rcases h.phase with hb | hA
  · have := hb.notify.symm.trans hall.2
    cases this
  · obtain ⟨l, hl, -, -, hr⟩ := hA.list
    rw [hall.2] at hl
    cases hl
    exact (hr t hpc).resolve_left (by simp)

end Steps

/-- **The waiters of an `AsyncValue`.** In every state reached by any number of `AndThen` calls and
one `NotifyAvailable`: an available word has an empty list and stays as it is, no waiter runs
before the value is available or twice, and when all calls have returned every waiter has run. -/
theorem waiters_correct (st avail : State) (hst : st.isAvailable = false)
    (hav : avail.isAvailable = true) (s : St) (hs : (sys st avail).Reach Any s) :
    (s.word.state.isAvailable = true → s.word.pointer = none) ∧
    (s.word.state.isAvailable = true →
      ∀ l s', step avail s l = some s' → s'.word.state = s.word.state) ∧
    (∀ t, 0 < s.ran t → s.word.state.isAvailable = true) ∧
    (∀ t, s.ran t ≤ 1) ∧
    (s.AllReturned → ∀ t, s.pc t = .returned → s.ran t = 1) := by
  have h : Inv st avail s := hs.invariant (fun _ hi => hi ▸ start_inv st avail)
    fun _ _ _ hi _ hn => hi.preserved hav hst hn
  refine ⟨fun ha => ?_, fun ha l s' hl => h.stays hav hst ha hl, fun t ht => h.ran_pos hav ht,
    fun t => h.ran_le, fun hall t ht => h.ran_of_returned hall ht⟩
  rw [(h.after hst ha).word]

/-- A schedule of two calls: `0` is enqueued before the exchange, `1` loses the race at its
compare-exchange and runs its own waiter. -/
def raceSchedule : List Label :=
  [.andThen 1 false, .andThen 1 false, .andThen 0 false, .andThen 0 false, .andThen 0 false,
    .notify, .andThen 1 false, .andThen 1 false, .andThen 1 false, .andThen 1 false,
    .andThen 1 false, .notify, .notify, .notify]

/-- The state after `raceSchedule`. -/
def raced : St :=
  (runLabels (step .kConcrete) (start .kUnconstructed) raceSchedule).getD (start .kUnconstructed)

theorem waiters_correct_race :
    (sys .kUnconstructed .kConcrete).Reach Any raced ∧ raced.AllReturned ∧ raced.ran 0 = 1 ∧
      raced.ran 1 = 1 := by
  have hr : (sys .kUnconstructed .kConcrete).Reach Any raced :=
    reach_runLabels (fun _ => True) (.init rfl) raceSchedule (fun _ _ => trivial) rfl
  have hall : raced.AllReturned := by
    refine ⟨fun t => ?_, rfl⟩
    match t with
    | 0 | 1 => exact .inr rfl
    | t + 2 => exact .inl rfl
  obtain ⟨-, -, -, -, hc⟩ := waiters_correct .kUnconstructed .kConcrete rfl rfl raced hr
  exact ⟨hr, hall, hc hall 0 rfl, hc hall 1 rfl⟩

end Waiters

end AsyncLib
