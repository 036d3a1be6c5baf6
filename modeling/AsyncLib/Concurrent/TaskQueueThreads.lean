import AsyncLib.Concurrent.TaskQueue
import AsyncLib.Lib.System

/-!
# `TaskQueue` under any interleaving

`async/concurrent/task_queue.h`: any number of threads run `PushFront`, `PopBack` and `Size` on one
ring, under sequentially consistent interleaving of the single loads, compare-exchanges, moves of
tasks and stores of slot states.

* `step`: one atomic step. `Log` is a record of the run beside the program's state: the tasks in the
  order in which their `PushFront` took its front ticket, the tickets whose push or pop is over, the
  calls that gave their task back, and the number of complete unclaimed tasks at every instant.
* `Inv`: the slot of a ticket belongs to the push that took the ticket, then to everybody, then to
  the pop that claimed it, then to the ticket one lap later.
* `queue_correct`: what holds in every reachable state of a run with fewer than `2^32 - 1024`
  successful pushes.
-/

namespace AsyncLib

namespace TaskQueue

namespace Threads

open Sys

variable {τ : Type}

/-- A thread. -/
abbrev Tid := Nat

/-- A call that a thread makes. -/
inductive Call (τ : Type) where
  | pushFront (task : τ)
  | popBack
  | size
  deriving DecidableEq, Repr

/-- Where a thread is. A `PushFront` carries its number among all calls and its task. -/
inductive Pc (τ : Type) where
  | idle
  /-- `front = mFront.load()`. -/
  | pushLoad (id : Nat) (task : τ)
  /-- `e->state.load()`, and the comparison with `front`. -/
  | pushState (id : Nat) (task : τ) (front : Word)
  /-- `mFront.compare_exchange_strong(front, front + 1)`. -/
  | pushCas (id : Nat) (task : τ) (front : Word)
  /-- `e->task = std::move(task)`. -/
  | pushMove (task : τ) (front : Word)
  /-- `e->state.store(front + 1)`. -/
  | pushStore (front : Word)
  /-- `back = mBack.load()`. -/
  | popLoad
  /-- `e->state.load()`, and the comparison with `back + 1`. -/
  | popState (back : Word)
  /-- `mBack.compare_exchange_strong(back, back + 1)`. -/
  | popCas (back : Word)
  /-- `task = std::move(e->task)`. -/
  | popMove (back : Word)
  /-- `e->state.store(back + kCapacity)`. -/
  | popStore (back : Word) (task : τ)
  /-- `front = mFront.load()` in `Size`, which began at instant `since`. -/
  | sizeFront (since : Nat)
  /-- `back = mBack.load()`. -/
  | sizeBack (since : Nat) (front : Word)
  /-- `front1 = mFront.load()`. -/
  | sizeFront1 (since : Nat) (front back : Word)
  deriving DecidableEq, Repr

/-- The record of a run. -/
structure Log (τ : Type) where
  /-- The number of calls made. -/
  calls : Nat
  /-- The `PushFront` calls that took a front ticket, in that order, with their tasks. -/
  tickets : List (Nat × τ)
  /-- The number of back tickets taken. -/
  claims : Nat
  /-- The front tickets whose `PushFront` has stored the slot's state. -/
  done : List Nat
  /-- The `PushFront` calls that gave their task back. -/
  rejected : List Nat
  /-- The back tickets whose `PopBack` has returned, with the tasks. -/
  pops : List (Nat × τ)
  /-- The number of complete unclaimed tasks, at every instant. -/
  hist : List Nat
  /-- The answers of `Size`, with the instants at which the call began and ended. -/
  sizes : List (Nat × Nat × Nat)

/-- The ring, the threads and the record. -/
structure St (τ : Type) where
  q : Ring τ
  pc : Tid → Pc τ
  log : Log τ

/-- The tasks completely pushed and not yet claimed. -/
def Log.complete (g : Log τ) : Nat :=
  ((List.range g.tickets.length).drop g.claims).countP fun k => decide (k ∈ g.done)

/-- The slot that the word `w` selects. -/
def elem (q : Ring τ) (w : Word) : Elem τ := q.mArray (slot w)

/-- A write to the slot that the word `w` selects. -/
def write (q : Ring τ) (w : Word) (e : Elem τ) : Ring τ :=
  { q with mArray := Function.update q.mArray (slot w) e }

/-- Thread `t` moves to `pc`. -/
def St.goto (s : St τ) (t : Tid) (pc : Pc τ) : St τ := { s with pc := Function.update s.pc t pc }

/-- One step of thread `t`, but for the record of the instant. -/
def move [Inhabited τ] (s : St τ) (t : Tid) : Option (St τ) :=
  match s.pc t with
  | .idle => none
  | .pushLoad id task => some (s.goto t (.pushState id task s.q.mFront))
  | .pushState id task front =>
    let d := diff (elem s.q front).state front
    if d = 0 then some (s.goto t (.pushCas id task front))
    else if d < 0 then
      -- `return {std::move(task)}`
      some { s.goto t .idle with log := { s.log with rejected := s.log.rejected ++ [id] } }
    else some (s.goto t (.pushLoad id task))
  | .pushCas id task front =>
    if s.q.mFront = front then
      some { s.goto t (.pushMove task front) with
        q := { s.q with mFront := front + 1 }
        log := { s.log with tickets := s.log.tickets ++ [(id, task)] } }
    else some (s.goto t (.pushState id task s.q.mFront))
  | .pushMove task front =>
    some { s.goto t (.pushStore front) with
      q := write s.q front ⟨(elem s.q front).state, task⟩ }
  | .pushStore front =>
    some { s.goto t .idle with
      q := write s.q front ⟨front + 1, (elem s.q front).task⟩
      log := { s.log with done := s.log.done ++ [front.toNat] } }
  | .popLoad => some (s.goto t (.popState s.q.mBack))
  | .popState back =>
    let d := diff (elem s.q back).state (back + 1)
    if d = 0 then some (s.goto t (.popCas back))
    else if d < 0 then some (s.goto t .idle)
    else some (s.goto t .popLoad)
  | .popCas back =>
    if s.q.mBack = back then
      some { s.goto t (.popMove back) with
        q := { s.q with mBack := back + 1 }
        log := { s.log with claims := s.log.claims + 1 } }
    else some (s.goto t (.popState s.q.mBack))
  | .popMove back =>
    some { s.goto t (.popStore back (elem s.q back).task) with
      q := write s.q back ⟨(elem s.q back).state, default⟩ }
  | .popStore back task =>
    some { s.goto t .idle with
      q := write s.q back ⟨back + BitVec.ofNat 32 kCapacity, (elem s.q back).task⟩
      log := { s.log with pops := s.log.pops ++ [(back.toNat, task)] } }
  | .sizeFront since => some (s.goto t (.sizeBack since s.q.mFront))
  | .sizeBack since front => some (s.goto t (.sizeFront1 since front s.q.mBack))
  | .sizeFront1 since front back =>
    let front1 := s.q.mFront
    if front ≠ front1 then some (s.goto t (.sizeBack since front1))
    else some { s.goto t .idle with
      log := { s.log with sizes := s.log.sizes ++
        [(since, s.log.hist.length, min kCapacity (front - back).toNat)] } }

/-- Who moves: an idle thread makes a call, or a thread takes its next step. -/
inductive Label (τ : Type) where
  | call (t : Tid) (c : Call τ)
  | move (t : Tid)
  deriving DecidableEq, Repr

/-- The first control point of a call. -/
def Call.entry (g : Log τ) : Call τ → Pc τ
  | .pushFront task => .pushLoad g.calls task
  | .popBack => .popLoad
  | .size => .sizeFront g.hist.length

/-- A step, but for the record of the instant. -/
def act [Inhabited τ] (s : St τ) : Label τ → Option (St τ)
  | .call t c =>
    match s.pc t with
    | .idle => some { s.goto t (c.entry s.log) with log := { s.log with calls := s.log.calls + 1 } }
    | _ => none
  | .move t => move s t

/-- The number of complete unclaimed tasks is recorded. -/
def St.tick (s : St τ) : St τ :=
  { s with log := { s.log with hist := s.log.hist ++ [s.log.complete] } }

/-- One atomic step. -/
def step [Inhabited τ] (s : St τ) (l : Label τ) : Option (St τ) := (act s l).map St.tick

/-- A fresh queue, no thread in a call. -/
def start [Inhabited τ] : St τ := ⟨fresh, fun _ => .idle, ⟨0, [], 0, [], [], [], [0], []⟩⟩

/-- The runs of any number of threads. -/
def sys [Inhabited τ] : Sys (St τ) (Label τ) := ofFun start step

/-! ## The invariant of the ring -/

/-- The slot of ticket `p`. -/
def pos (p : Nat) : Fin kCapacity := ⟨p % kCapacity, Nat.mod_lt _ (by decide)⟩

/-- The content of the slot of ticket `p`. -/
def St.cell (s : St τ) (p : Nat) : Elem τ := s.q.mArray (pos p)

/-- The state word of the slot of ticket `p`. -/
def St.word (s : St τ) (p : Nat) : Nat := (s.cell p).state.toNat

/-- The number of front tickets taken. -/
def St.fronts (s : St τ) : Nat := s.log.tickets.length

/-- The number of back tickets taken. -/
def St.backs (s : St τ) : Nat := s.log.claims

/-- The task of front ticket `p`. -/
def St.taskAt (s : St τ) (p : Nat) : Option τ := s.log.tickets[p]?.map Prod.snd

/-- The front ticket of a push that has not stored the slot's state yet. -/
def Pc.pushes : Pc τ → Option Nat
  | .pushMove _ front | .pushStore front => some front.toNat
  | _ => none

/-- The back ticket of a pop that has not stored the slot's state yet. -/
def Pc.pops : Pc τ → Option Nat
  | .popMove back | .popStore back _ => some back.toNat
  | _ => none

/-- At some instant from `since` on there were at most `v` complete unclaimed tasks. -/
def Log.Seen (g : Log τ) (since v : Nat) : Prop :=
  ∃ i n, since ≤ i ∧ g.hist[i]? = some n ∧ n ≤ v

/-- What is known of a thread at `pc`. -/
def PcOk (s : St τ) : Pc τ → Prop
  | .idle | .pushLoad _ _ | .popLoad => True
  | .pushState _ _ front => front.toNat ≤ s.fronts
  | .pushCas _ _ front =>
    front.toNat ≤ s.fronts ∧ (front.toNat = s.fronts → s.word s.fronts = s.fronts)
  | .pushMove task front => s.backs ≤ front.toNat ∧ s.taskAt front.toNat = some task ∧
    s.word front.toNat = front.toNat
  | .pushStore front => s.backs ≤ front.toNat ∧
    s.taskAt front.toNat = some (s.cell front.toNat).task ∧ s.word front.toNat = front.toNat
  | .popState back => back.toNat ≤ s.backs
  | .popCas back => back.toNat ≤ s.backs ∧ (back.toNat = s.backs → s.word s.backs = s.backs + 1)
  | .popMove back => back.toNat < s.backs ∧ s.fronts ≤ back.toNat + kCapacity ∧
    s.taskAt back.toNat = some (s.cell back.toNat).task ∧ s.word back.toNat = back.toNat + 1
  | .popStore back task => back.toNat < s.backs ∧ s.fronts ≤ back.toNat + kCapacity ∧
    s.taskAt back.toNat = some task ∧ s.word back.toNat = back.toNat + 1
  | .sizeFront since => since < s.log.hist.length
  | .sizeBack since front => since < s.log.hist.length ∧ front.toNat ≤ s.fronts
  | .sizeFront1 since front back => since < s.log.hist.length ∧ front.toNat ≤ s.fronts ∧
    (front.toNat = s.fronts → back.toNat ≤ s.fronts ∧
      s.log.Seen since (min kCapacity (s.fronts - back.toNat)))

/-- The ring and the threads agree (module doc). -/
structure Inv (s : St τ) : Prop where
  front : s.q.mFront.toNat = s.fronts
  back : s.q.mBack.toNat = s.backs
  le : s.backs ≤ s.fronts
  cap : s.fronts ≤ s.backs + kCapacity
  pcs : ∀ t, PcOk s (s.pc t)
  push_unique : ∀ t t' p, (s.pc t).pushes = some p → (s.pc t').pushes = some p → t = t'
  pop_unique : ∀ t t' p, (s.pc t).pops = some p → (s.pc t').pops = some p → t = t'
  /-- A complete unclaimed ticket. -/
  full : ∀ p, s.backs ≤ p → p < s.fronts → (∀ t, (s.pc t).pushes ≠ some p) →
    s.taskAt p = some (s.cell p).task ∧ s.word p = p + 1
  /-- A ticket not taken, whose slot no pop of the lap before holds. -/
  free : ∀ p, s.fronts ≤ p → p < s.backs + kCapacity →
    (∀ t p', (s.pc t).pops = some p' → p' + kCapacity ≠ p) → s.word p = p

theorem slot_eq_pos (w : Word) : slot w = pos w.toNat := by
  rw [Fin.ext_iff]
  exact toNat_mask w

theorem pos_eq_iff {p p' : Nat} : pos p = pos p' ↔ p % kCapacity = p' % kCapacity := by
  rw [Fin.ext_iff]
  rfl

theorem elem_eq_cell (s : St τ) (w : Word) : elem s.q w = s.cell w.toNat := by
  rw [elem, slot_eq_pos]
  rfl

theorem taskAt_lt {s : St τ} {p : Nat} {x : τ} (h : s.taskAt p = some x) : p < s.fronts := by
  rw [St.taskAt, Option.map_eq_some_iff] at h
  obtain ⟨e, he, -⟩ := h
  exact (List.getElem?_eq_some_iff.mp he).1

/-- A push holds a ticket that is taken and not claimed, and its slot carries that ticket. -/
theorem PcOk.pushes {s : St τ} {pc : Pc τ} (h : PcOk s pc) {p : Nat} (hp : pc.pushes = some p) :
    s.backs ≤ p ∧ p < s.fronts ∧ s.word p = p := by
  cases pc <;> simp only [Pc.pushes, reduceCtorEq, Option.some.injEq] at hp
  all_goals
    subst hp
    exact ⟨h.1, taskAt_lt h.2.1, h.2.2⟩

/-- A pop holds a claimed ticket of the last lap, and its slot carries that ticket plus one. -/
theorem PcOk.pops {s : St τ} {pc : Pc τ} (h : PcOk s pc) {p : Nat} (hp : pc.pops = some p) :
    p < s.backs ∧ s.fronts ≤ p + kCapacity ∧ s.word p = p + 1 := by
  cases pc <;> simp only [Pc.pops, reduceCtorEq, Option.some.injEq] at hp
  all_goals
    subst hp
    exact ⟨h.1, h.2.1, h.2.2.2⟩

variable {s s' : St τ} {t : Tid}

/-- A thread that does not move keeps what is known of it, if the tickets only grow, and the slots
that it relies on keep their content. -/
theorem PcOk.frame {pc : Pc τ} (h : PcOk s pc) (ts : List (Nat × τ)) {ns : List Nat}
    (htickets : s'.log.tickets = s.log.tickets ++ ts) (hhist : s'.log.hist = s.log.hist ++ ns)
    (hbacks : s.backs ≤ s'.backs)
    (hfront : s'.fronts = s.fronts → s.word s.fronts = s.fronts → s'.word s.fronts = s.fronts)
    (hback : s'.backs = s.backs → s.word s.backs = s.backs + 1 → s'.word s.backs = s.backs + 1)
    (hpush : ∀ p, pc.pushes = some p → s'.backs ≤ p ∧ s'.cell p = s.cell p)
    (hpop : ∀ p, pc.pops = some p → s'.fronts ≤ p + kCapacity ∧ s'.cell p = s.cell p) :
    PcOk s' pc := by
  have hfronts : s.fronts ≤ s'.fronts := by
    simp only [St.fronts, htickets, List.length_append]
    omega
  have htask : ∀ {p x}, s.taskAt p = some x → s'.taskAt p = some x := fun {p x} hx => by
    have hlt := taskAt_lt hx
    rw [St.taskAt] at hx ⊢
    rw [htickets, List.getElem?_append_left hlt]
    exact hx
  have hseen : ∀ {a v}, s.log.Seen a v → s'.log.Seen a v := fun {a v} ⟨i, n, h1, h2, h3⟩ => by
    refine ⟨i, n, h1, ?_, h3⟩
    rw [hhist, List.getElem?_append_left (List.getElem?_eq_some_iff.mp h2).1]
    exact h2
  have hlen : s.log.hist.length ≤ s'.log.hist.length := by
    rw [hhist, List.length_append]
    omega
  have hword : ∀ {p}, s'.cell p = s.cell p → s'.word p = s.word p := fun hc => by
    rw [St.word, hc]
    rfl
  cases pc with
  | idle => trivial
  | pushLoad id task => trivial
  | popLoad => trivial
  | pushState id task front => exact Nat.le_trans h hfronts
  | pushCas id task front =>
    refine ⟨Nat.le_trans h.1 hfronts, fun he => ?_⟩
    -- the front ticket was not taken in between
    have hf : s'.fronts = s.fronts := by have := h.1; omega
    rw [hf]
    exact hfront hf (h.2 (by omega))
  | pushMove task front =>
    obtain ⟨hb, hc⟩ := hpush _ rfl
    exact ⟨hb, htask h.2.1, (hword hc).trans h.2.2⟩
  | pushStore front =>
    obtain ⟨hb, hc⟩ := hpush _ rfl
    exact ⟨hb, by rw [hc]; exact htask h.2.1, (hword hc).trans h.2.2⟩
  | popState back => exact Nat.le_trans h hbacks
  | popCas back =>
    refine ⟨Nat.le_trans h.1 hbacks, fun he => ?_⟩
    have hb : s'.backs = s.backs := by have := h.1; omega
    rw [hb]
    exact hback hb (h.2 (by omega))
  | popMove back =>
    obtain ⟨hf, hc⟩ := hpop _ rfl
    exact ⟨Nat.lt_of_lt_of_le h.1 hbacks, hf, by rw [hc]; exact htask h.2.2.1,
      (hword hc).trans h.2.2.2⟩
  | popStore back task =>
    obtain ⟨hf, hc⟩ := hpop _ rfl
    exact ⟨Nat.lt_of_lt_of_le h.1 hbacks, hf, htask h.2.2.1, (hword hc).trans h.2.2.2⟩
  | sizeFront since => exact Nat.lt_of_lt_of_le h hlen
  | sizeBack since front => exact ⟨Nat.lt_of_lt_of_le h.1 hlen, Nat.le_trans h.2 hfronts⟩
  | sizeFront1 since front back =>
    refine ⟨Nat.lt_of_lt_of_le h.1 hlen, Nat.le_trans h.2.1 hfronts, fun he => ?_⟩
    have hf : s'.fronts = s.fronts := by have := h.2.1; omega
    obtain ⟨h1, h2⟩ := h.2.2 (by omega)
    rw [hf]
    exact ⟨h1, hseen h2⟩

/-- Thread `t` has moved to `pc`; the instant is recorded. -/
structure Moved (s s' : St τ) (t : Tid) (pc : Pc τ) : Prop where
  pc : s'.pc = Function.update s.pc t pc
  hist : ∃ n, s'.log.hist = s.log.hist ++ [n]

theorem Moved.self {pc : Pc τ} (h : Moved s s' t pc) : s'.pc t = pc := by
  rw [h.pc, Function.update_self]

theorem Moved.other {pc : Pc τ} (h : Moved s s' t pc) {t' : Tid} (ht : t' ≠ t) :
    s'.pc t' = s.pc t' := by rw [h.pc, Function.update_of_ne ht]

/-- What one thread holds when `t` has moved. -/
theorem Moved.pushes {pc : Pc τ} (h : Moved s s' t pc) (hp : pc.pushes = (s.pc t).pushes)
    (t' : Tid) :
    (s'.pc t').pushes = (s.pc t').pushes := by
  by_cases ht : t' = t
  · rw [ht, h.self, hp]
  · rw [h.other ht]

theorem Moved.pops {pc : Pc τ} (h : Moved s s' t pc) (hp : pc.pops = (s.pc t).pops) (t' : Tid) :
    (s'.pc t').pops = (s.pc t').pops := by
  by_cases ht : t' = t
  · rw [ht, h.self, hp]
  · rw [h.other ht]

/-- Thread `t` takes ticket `n`, which is above all those held. -/
theorem Moved.unique_new {pc : Pc τ} (h : Moved s s' t pc) {f : Pc τ → Option Nat} {n : Nat}
    (huniq : ∀ u u' p, f (s.pc u) = some p → f (s.pc u') = some p → u = u')
    (hlt : ∀ u p, f (s.pc u) = some p → p < n) (hself : f pc = some n) (u u' : Tid) (p : Nat)
    (hu : f (s'.pc u) = some p) (hu' : f (s'.pc u') = some p) : u = u' := by
  by_cases h1 : u = t <;> by_cases h2 : u' = t
  · rw [h1, h2]
  · subst h1
    rw [h.self, hself] at hu
    rw [h.other h2] at hu'
    have := hlt u' p hu'
    cases hu
    omega
  · subst h2
    rw [h.self, hself] at hu'
    rw [h.other h1] at hu
    have := hlt u p hu
    cases hu'
    omega
  · rw [h.other h1] at hu
    rw [h.other h2] at hu'
    exact huniq u u' p hu hu'

/-- Thread `t` gives its ticket up. -/
theorem Moved.of_gone {pc : Pc τ} (h : Moved s s' t pc) {f : Pc τ → Option Nat}
    (hself : f pc = none) {u : Tid} {p : Nat} (hu : f (s'.pc u) = some p) :
    f (s.pc u) = some p ∧ u ≠ t := by
  by_cases h1 : u = t
  · subst h1
    rw [h.self, hself] at hu
    cases hu
  · rw [h.other h1] at hu
    exact ⟨hu, h1⟩

/-- A step that changes neither the ring nor the tickets. -/
theorem Inv.quiet (h : Inv s) {pc : Pc τ} (hm : Moved s s' t pc) (hq : s'.q = s.q)
    (htickets : s'.log.tickets = s.log.tickets) (hclaims : s'.log.claims = s.log.claims)
    (hpush : pc.pushes = (s.pc t).pushes) (hpop : pc.pops = (s.pc t).pops) (hpc : PcOk s' pc) :
    Inv s' := by
  obtain ⟨n, hhist⟩ := hm.hist
  have hcell : ∀ p, s'.cell p = s.cell p := fun p => by rw [St.cell, hq]; rfl
  have hword : ∀ p, s'.word p = s.word p := fun p => by rw [St.word, hcell]; rfl
  have hF : s'.fronts = s.fronts := by rw [St.fronts, htickets]; rfl
  have hB : s'.backs = s.backs := hclaims
  have htask : ∀ p, s'.taskAt p = s.taskAt p := fun p => by rw [St.taskAt, htickets]; rfl
  refine ⟨?_, ?_, ?_, ?_, fun t' => ?_, ?_, ?_, ?_, ?_⟩
  · rw [hq, hF]
    exact h.front
  · rw [hq, hB]
    exact h.back
  · rw [hF, hB]
    exact h.le
  · rw [hF, hB]
    exact h.cap
  · by_cases ht : t' = t
    · rwa [ht, hm.self]
    · rw [hm.other ht]
      refine (h.pcs t').frame [] (by simpa using htickets) hhist (Nat.le_of_eq hB.symm) ?_ ?_
        ?_ ?_
      · exact fun _ hw => (hword _).trans hw
      · exact fun _ hw => (hword _).trans hw
      · exact fun p hp => ⟨by rw [hB]; exact ((h.pcs t').pushes hp).1, hcell p⟩
      · exact fun p hp => ⟨by rw [hF]; exact ((h.pcs t').pops hp).2.1, hcell p⟩
  · simp only [hm.pushes hpush]
    exact h.push_unique
  · simp only [hm.pops hpop]
    exact h.pop_unique
  · simp only [hm.pushes hpush, hF, hB, htask, hcell, hword]
    exact h.full
  · simp only [hm.pops hpop, hF, hB, hword]
    exact h.free

/-- The slots of two tickets with different state words are different. -/
theorem pos_ne_of_word {p p' : Nat} (h : s.word p ≠ s.word p') : pos p ≠ pos p' := by
  intro he
  rw [St.word, St.word, St.cell, St.cell, he] at h
  exact h rfl

theorem word_lap (s : St τ) (p : Nat) : s.word (p + kCapacity) = s.word p := by
  rw [St.word, St.word, St.cell, St.cell,
    show pos (p + kCapacity) = pos p from pos_eq_iff.mpr (Nat.add_mod_right p kCapacity)]

/-- Two tickets less than a lap apart have different slots. -/
theorem pos_ne {p p' : Nat} (h : p ≠ p') (h1 : p < p' + kCapacity) (h2 : p' < p + kCapacity) :
    pos p ≠ pos p' := by
  rw [Ne, pos_eq_iff]
  unfold kCapacity at *
  omega

/-- A slot that carries the front ticket is free: the ring is not full. -/
theorem Inv.not_full (h : Inv s) (hw : s.word s.fronts = s.fronts) :
    s.fronts < s.backs + kCapacity := by
  refine Nat.lt_of_le_of_ne h.cap fun he => ?_
  have hb : s.word s.backs = s.fronts := by rw [← hw, he, word_lap]
  have hlt : s.backs < s.fronts := by unfold kCapacity at he; omega
  by_cases hpush : ∃ t, (s.pc t).pushes = some s.backs
  · obtain ⟨t, ht⟩ := hpush
    have := ((h.pcs t).pushes ht).2.2
    omega
  · have := (h.full s.backs (Nat.le_refl _) hlt fun t ht => hpush ⟨t, ht⟩).2
    unfold kCapacity at he
    omega

/-- A slot that carries the back ticket plus one holds a complete task. -/
theorem Inv.not_empty (h : Inv s) (hw : s.word s.backs = s.backs + 1) : s.backs < s.fronts := by
  refine Nat.lt_of_le_of_ne h.le fun he => ?_
  by_cases hpop : ∃ t p', (s.pc t).pops = some p' ∧ p' + kCapacity = s.backs
  · obtain ⟨t, p', ht, hp'⟩ := hpop
    have := ((h.pcs t).pops ht).2.2
    rw [← hp', word_lap] at hw
    unfold kCapacity at hw
    omega
  · have := h.free s.backs (Nat.le_of_eq he.symm) (by unfold kCapacity; omega)
      fun t p' ht hp' => hpop ⟨t, p', ht, hp'⟩
    omega

/-- The compare-exchange of `PushFront` takes the front ticket. -/
theorem Inv.takeFront (h : Inv s) {task : τ} {front : Word} {id : Nat}
    (hm : Moved s s' t (.pushMove task front))
    (hold : (s.pc t).pushes = none ∧ (s.pc t).pops = none)
    (hfront : front.toNat = s.fronts) (hw : s.word s.fronts = s.fronts)
    (hq : s'.q = { s.q with mFront := front + 1 })
    (htickets : s'.log.tickets = s.log.tickets ++ [(id, task)])
    (hclaims : s'.log.claims = s.log.claims) (hbound : s'.fronts < 2 ^ 32) : Inv s' := by
  obtain ⟨n, hhist⟩ := hm.hist
  have hcell : ∀ p, s'.cell p = s.cell p := fun p => by rw [St.cell, hq]; rfl
  have hword : ∀ p, s'.word p = s.word p := fun p => by rw [St.word, hcell]; rfl
  have hF : s'.fronts = s.fronts + 1 := by
    rw [St.fronts, htickets, List.length_append, List.length_singleton]; rfl
  have hB : s'.backs = s.backs := hclaims
  have htask : ∀ p, p < s.fronts → s'.taskAt p = s.taskAt p := fun p hp => by
    rw [St.taskAt, htickets, List.getElem?_append_left hp]; rfl
  have hroom := h.not_full hw
  have hle := h.le
  have hnew : s'.taskAt s.fronts = some task := by
    rw [St.taskAt, htickets, St.fronts, List.getElem?_concat_length]; rfl
  refine ⟨?_, ?_, by omega, by omega, fun t' => ?_, ?_, ?_, ?_, ?_⟩
  · rw [hq, hF]
    show (front + 1).toNat = _
    rw [BitVec.toNat_add, hfront, show (1 : Word).toNat = 1 from rfl]
    omega
  · rw [hq, hB]
    exact h.back
  · by_cases ht : t' = t
    · rw [ht, hm.self]
      refine ⟨by omega, by rw [hfront]; exact hnew, ?_⟩
      rw [hfront, hword, hw]
    · rw [hm.other ht]
      refine (h.pcs t').frame _ htickets hhist (Nat.le_of_eq hB.symm) ?_ ?_ ?_ ?_
      · exact fun _ hw => (hword _).trans hw
      · exact fun _ hw => (hword _).trans hw
      · exact fun p hp => ⟨by rw [hB]; exact ((h.pcs t').pushes hp).1, hcell p⟩
      · intro p hp
        obtain ⟨h1, h2, h3⟩ := (h.pcs t').pops hp
        -- the slot of a pop one lap behind does not carry the front ticket
        have hne : s.fronts ≠ p + kCapacity := fun he => by
          rw [he, word_lap, h3] at hw
          unfold kCapacity at hw
          omega
        exact ⟨by omega, hcell p⟩
  · exact hm.unique_new h.push_unique (fun u p hu => ((h.pcs u).pushes hu).2.1)
      (congrArg some hfront)
  · have hp : Pc.pops (.pushMove task front) = (s.pc t).pops := hold.2.symm
    simp only [hm.pops hp]
    exact h.pop_unique
  · intro p h1 h2 h3
    have hne : p ≠ s.fronts := fun he => h3 t (by rw [hm.self, he, ← hfront]; rfl)
    rw [htask p (by omega), hcell, hword]
    refine h.full p (by omega) (by omega) fun u hu => h3 u ?_
    have hut : u ≠ t := fun he => by
      rw [he, hold.1] at hu
      cases hu
    rwa [hm.other hut]
  · have hp : Pc.pops (.pushMove task front) = (s.pc t).pops := hold.2.symm
    intro p h1 h2 h3
    rw [hword]
    simp only [hm.pops hp] at h3
    exact h.free p (by omega) (by omega) h3

/-- The compare-exchange of `PopBack` claims the back ticket. -/
theorem Inv.claim (h : Inv s) {back : Word} (hm : Moved s s' t (.popMove back))
    (hold : (s.pc t).pushes = none ∧ (s.pc t).pops = none)
    (hback : back.toNat = s.backs) (hw : s.word s.backs = s.backs + 1)
    (hq : s'.q = { s.q with mBack := back + 1 })
    (htickets : s'.log.tickets = s.log.tickets)
    (hclaims : s'.log.claims = s.log.claims + 1) (hbound : s'.fronts < 2 ^ 32) : Inv s' := by
  obtain ⟨n, hhist⟩ := hm.hist
  have hcell : ∀ p, s'.cell p = s.cell p := fun p => by rw [St.cell, hq]; rfl
  have hword : ∀ p, s'.word p = s.word p := fun p => by rw [St.word, hcell]; rfl
  have hF : s'.fronts = s.fronts := by rw [St.fronts, htickets]; rfl
  have hB : s'.backs = s.backs + 1 := hclaims
  have htask : ∀ p, s'.taskAt p = s.taskAt p := fun p => by rw [St.taskAt, htickets]; rfl
  have hsome := h.not_empty hw
  have hcap := h.cap
  have hp : (Pc.popMove back : Pc τ).pushes = (s.pc t).pushes := hold.1.symm
  -- no push holds the claimed slot
  have hnopush : ∀ u p, (s.pc u).pushes = some p → s.backs < p := fun u p hu => by
    obtain ⟨h1, -, h3⟩ := (h.pcs u).pushes hu
    rcases Nat.lt_or_eq_of_le h1 with hlt | he
    · exact hlt
    · rw [← he, hw] at h3
      omega
  have hfull := h.full s.backs (Nat.le_refl _) hsome fun u hu =>
    Nat.lt_irrefl _ (hnopush u _ hu)
  refine ⟨?_, ?_, by omega, by omega, fun t' => ?_, ?_, ?_, ?_, ?_⟩
  · rw [hq, hF]
    exact h.front
  · rw [hq, hB]
    show (back + 1).toNat = _
    rw [BitVec.toNat_add, hback, show (1 : Word).toNat = 1 from rfl]
    omega
  · by_cases ht : t' = t
    · rw [ht, hm.self]
      refine ⟨by omega, by omega, ?_, ?_⟩
      · rw [hback, htask, hcell]
        exact hfull.1
      · rw [hback, hword, hw]
    · rw [hm.other ht]
      refine (h.pcs t').frame [] (by simpa using htickets) hhist (by omega) ?_ ?_ ?_ ?_
      · exact fun _ hw => (hword _).trans hw
      · exact fun _ hw => (hword _).trans hw
      · exact fun p hp => ⟨by have := hnopush t' p hp; omega, hcell p⟩
      · exact fun p hp => ⟨by rw [hF]; exact ((h.pcs t').pops hp).2.1, hcell p⟩
  · simp only [hm.pushes hp]
    exact h.push_unique
  · exact hm.unique_new h.pop_unique (fun u p hu => ((h.pcs u).pops hu).1)
      (congrArg some hback)
  · intro p h1 h2 h3
    rw [htask, hcell, hword]
    simp only [hm.pushes hp] at h3
    exact h.full p (by omega) (by omega) h3
  · intro p h1 h2 h3
    rw [hword]
    have hne : s.backs + kCapacity ≠ p := h3 t s.backs (by rw [hm.self, ← hback]; rfl)
    refine h.free p (by omega) (by omega) fun u p' hu => h3 u p' ?_
    have hut : u ≠ t := fun he => by
      rw [he, hold.2] at hu
      cases hu
    rwa [hm.other hut]

theorem cell_write {w : Word} {e : Elem τ} (hq : s'.q = write s.q w e) {p : Nat}
    (hp : pos p ≠ pos w.toNat) : s'.cell p = s.cell p := by
  rw [St.cell, hq, write, slot_eq_pos]
  exact Function.update_of_ne hp _ _

theorem cell_write_self {w : Word} {e : Elem τ} (hq : s'.q = write s.q w e) {p : Nat}
    (hp : pos p = pos w.toNat) : s'.cell p = e := by
  rw [St.cell, hq, write, slot_eq_pos, hp]
  exact Function.update_self _ _ _

theorem word_of_cell {p : Nat} (h : s'.cell p = s.cell p) : s'.word p = s.word p := by
  rw [St.word, h]
  rfl

/-- Thread `t` writes to a slot that no other thread holds. -/
theorem Inv.write (h : Inv s) {pc : Pc τ} (hm : Moved s s' t pc) {w : Word} {e : Elem τ}
    (hq : s'.q = write s.q w e) (htickets : s'.log.tickets = s.log.tickets)
    (hclaims : s'.log.claims = s.log.claims)
    (hsep : ∀ u p, u ≠ t → (s.pc u).pushes = some p ∨ (s.pc u).pops = some p →
      pos p ≠ pos w.toNat)
    (hfront : s.word s.fronts = s.fronts → pos s.fronts ≠ pos w.toNat)
    (hback : s.word s.backs = s.backs + 1 → pos s.backs ≠ pos w.toNat)
    (hpushes : ∀ p, pc.pushes = some p → (s.pc t).pushes = some p)
    (hpops : ∀ p, pc.pops = some p → (s.pc t).pops = some p) (hpc : PcOk s' pc)
    (hfull : ∀ p, s.backs ≤ p → p < s.fronts → (∀ u, (s'.pc u).pushes ≠ some p) →
      s.taskAt p = some (s'.cell p).task ∧ s'.word p = p + 1)
    (hfree : ∀ p, s.fronts ≤ p → p < s.backs + kCapacity →
      (∀ u p', (s'.pc u).pops = some p' → p' + kCapacity ≠ p) → s'.word p = p) : Inv s' := by
  obtain ⟨n, hhist⟩ := hm.hist
  have hF : s'.fronts = s.fronts := by rw [St.fronts, htickets]; rfl
  have hB : s'.backs = s.backs := hclaims
  have htask : ∀ p, s'.taskAt p = s.taskAt p := fun p => by rw [St.taskAt, htickets]; rfl
  -- nobody holds a ticket that was not held before
  have hold : ∀ (f : Pc τ → Option Nat) u p, (f pc = some p → f (s.pc t) = some p) →
      f (s'.pc u) = some p → f (s.pc u) = some p := fun f u p hf hu => by
    by_cases ht : u = t
    · rw [ht, hm.self] at hu
      rw [ht]
      exact hf hu
    · rwa [hm.other ht] at hu
  refine ⟨?_, ?_, ?_, ?_, fun t' => ?_, ?_, ?_, ?_, ?_⟩
  · rw [hq, hF]
    exact h.front
  · rw [hq, hB]
    exact h.back
  · rw [hF, hB]
    exact h.le
  · rw [hF, hB]
    exact h.cap
  · by_cases ht : t' = t
    · rwa [ht, hm.self]
    · rw [hm.other ht]
      refine (h.pcs t').frame [] (by simpa using htickets) hhist (Nat.le_of_eq hB.symm) ?_ ?_
        ?_ ?_
      · exact fun _ hw => (word_of_cell (cell_write hq (hfront hw))).trans hw
      · exact fun _ hw => (word_of_cell (cell_write hq (hback hw))).trans hw
      · exact fun p hp => ⟨by rw [hB]; exact ((h.pcs t').pushes hp).1,
          cell_write hq (hsep t' p ht (.inl hp))⟩
      · exact fun p hp => ⟨by rw [hF]; exact ((h.pcs t').pops hp).2.1,
          cell_write hq (hsep t' p ht (.inr hp))⟩
  · exact fun u u' p hu hu' => h.push_unique u u' p (hold _ u p (hpushes p) hu)
      (hold _ u' p (hpushes p) hu')
  · exact fun u u' p hu hu' => h.pop_unique u u' p (hold _ u p (hpops p) hu)
      (hold _ u' p (hpops p) hu')
  · intro p h1 h2 h3
    rw [htask]
    exact hfull p (by omega) (by omega) h3
  · exact fun p h1 h2 h3 => hfree p (by omega) (by omega) h3

/-- The slot of a push is no other thread's, and not the one that the next push or pop looks at. -/
theorem Inv.push_apart (h : Inv s) {f : Nat} (hf : (s.pc t).pushes = some f) :
    (∀ u p, u ≠ t → (s.pc u).pushes = some p ∨ (s.pc u).pops = some p → pos p ≠ pos f) ∧
    (s.word s.fronts = s.fronts → pos s.fronts ≠ pos f) ∧
    (s.word s.backs = s.backs + 1 → pos s.backs ≠ pos f) ∧
    (∀ p, s.backs ≤ p → p < s.fronts → p ≠ f → pos p ≠ pos f) ∧
    ∀ p, s.fronts ≤ p → p < s.backs + kCapacity → pos p ≠ pos f := by
  obtain ⟨h1, h2, h3⟩ := (h.pcs t).pushes hf
  have hcap := h.cap
  refine ⟨?_, fun hw => ?_, fun hw => ?_, fun p _ _ hne => ?_, fun p _ _ => ?_⟩
  · rintro u p hu (hp | hp)
    · obtain ⟨g1, g2, g3⟩ := (h.pcs u).pushes hp
      refine pos_ne_of_word (s := s) ?_
      rw [g3, h3]
      rintro rfl
      exact hu (h.push_unique u t p hp hf)
    · obtain ⟨g1, g2, g3⟩ := (h.pcs u).pops hp
      exact pos_ne (by omega) (by omega) (by omega)
  · exact pos_ne_of_word (s := s) (by omega)
  · by_cases hfb : f = s.backs + 1
    · exact pos_ne (by omega) (by unfold kCapacity; omega) (by unfold kCapacity; omega)
    · exact pos_ne_of_word (s := s) (by omega)
  · exact pos_ne hne (by omega) (by omega)
  · exact pos_ne (by omega) (by omega) (by omega)

/-- The same for the slot of a pop. -/
theorem Inv.pop_apart (h : Inv s) {b : Nat} (hb : (s.pc t).pops = some b) :
    (∀ u p, u ≠ t → (s.pc u).pushes = some p ∨ (s.pc u).pops = some p → pos p ≠ pos b) ∧
    (s.word s.fronts = s.fronts → pos s.fronts ≠ pos b) ∧
    (s.word s.backs = s.backs + 1 → pos s.backs ≠ pos b) ∧
    (∀ p, s.backs ≤ p → p < s.fronts → pos p ≠ pos b) ∧
    ∀ p, s.fronts ≤ p → p < s.backs + kCapacity → p ≠ b + kCapacity → pos p ≠ pos b := by
  obtain ⟨h1, h2, h3⟩ := (h.pcs t).pops hb
  have hle := h.le
  refine ⟨?_, fun hw => ?_, fun hw => ?_, fun p _ _ => ?_, fun p _ _ hne => ?_⟩
  · rintro u p hu (hp | hp)
    · obtain ⟨g1, g2, g3⟩ := (h.pcs u).pushes hp
      exact pos_ne (by omega) (by omega) (by omega)
    · obtain ⟨g1, g2, g3⟩ := (h.pcs u).pops hp
      refine pos_ne_of_word (s := s) ?_
      rw [g3, h3]
      intro he
      have : p = b := by omega
      subst this
      exact hu (h.pop_unique u t p hp hb)
  · by_cases hfb : s.fronts = b + 1
    · exact pos_ne (by omega) (by unfold kCapacity; omega) (by unfold kCapacity; omega)
    · exact pos_ne_of_word (s := s) (by omega)
  · exact pos_ne_of_word (s := s) (by omega)
  · exact pos_ne (by omega) (by omega) (by omega)
  · rw [Ne, pos_eq_iff]
    unfold kCapacity at *
    omega

/-- `e->task = std::move(task)`. -/
theorem Inv.fill (h : Inv s) {task : τ} {front : Word} (hp : s.pc t = .pushMove task front)
    (hm : Moved s s' t (.pushStore front))
    (hq : s'.q = Threads.write s.q front ⟨(s.cell front.toNat).state, task⟩)
    (htickets : s'.log.tickets = s.log.tickets) (hclaims : s'.log.claims = s.log.claims) :
    Inv s' := by
  have hpc := h.pcs t
  have hheld : (s.pc t).pushes = some front.toNat := by rw [hp]; rfl
  obtain ⟨hsep, hfr, hbk, hfull, hfree⟩ := h.push_apart hheld
  have hself := cell_write_self hq (p := front.toNat) rfl
  have hpush := hm.pushes (by rw [hheld]; rfl)
  have hpop := hm.pops (by rw [hp]; rfl)
  rw [hp] at hpc
  refine h.write hm hq htickets hclaims hsep hfr hbk (fun p hpp => by rw [hheld]; exact hpp)
    (fun p hpp => by cases hpp) ⟨by rw [St.backs, hclaims]; exact hpc.1, ?_, ?_⟩ ?_ ?_
  · rw [St.taskAt, htickets, hself]
    exact hpc.2.1
  · rw [St.word, hself]
    exact hpc.2.2
  · intro p h1 h2 h3
    simp only [hpush] at h3
    have hc := cell_write hq (hfull p h1 h2 fun he => h3 t (by rw [he, hheld]))
    rw [hc, word_of_cell hc]
    exact h.full p h1 h2 h3
  · intro p h1 h2 h3
    simp only [hpop] at h3
    rw [word_of_cell (cell_write hq (hfree p h1 h2))]
    exact h.free p h1 h2 h3

/-- `e->state.store(front + 1)`: the ticket is complete. -/
theorem Inv.publish (h : Inv s) {front : Word} (hp : s.pc t = .pushStore front)
    (hm : Moved s s' t .idle)
    (hq : s'.q = Threads.write s.q front ⟨front + 1, (s.cell front.toNat).task⟩)
    (htickets : s'.log.tickets = s.log.tickets) (hclaims : s'.log.claims = s.log.claims)
    (hbound : s.fronts < 2 ^ 32) : Inv s' := by
  have hpc := h.pcs t
  have hheld : (s.pc t).pushes = some front.toNat := by rw [hp]; rfl
  obtain ⟨hsep, hfr, hbk, hfull, hfree⟩ := h.push_apart hheld
  have hself := cell_write_self hq (p := front.toNat) rfl
  have hpop := hm.pops (by rw [hp]; rfl)
  have hlt := ((h.pcs t).pushes hheld).2.1
  rw [hp] at hpc
  refine h.write hm hq htickets hclaims hsep hfr hbk (fun p hpp => by cases hpp)
    (fun p hpp => by cases hpp) trivial ?_ ?_
  · intro p h1 h2 h3
    by_cases he : p = front.toNat
    · subst he
      rw [St.word, hself]
      refine ⟨hpc.2.1, ?_⟩
      show (front + 1).toNat = _
      rw [BitVec.toNat_add, show (1 : Word).toNat = 1 from rfl]
      omega
    · have hc := cell_write hq (hfull p h1 h2 he)
      rw [hc, word_of_cell hc]
      refine h.full p h1 h2 fun u hu => ?_
      by_cases hut : u = t
      · rw [hut, hheld] at hu
        exact he (Option.some.inj hu).symm
      · exact h3 u (by rw [hm.other hut]; exact hu)
  · intro p h1 h2 h3
    simp only [hpop] at h3
    rw [word_of_cell (cell_write hq (hfree p h1 h2))]
    exact h.free p h1 h2 h3

/-- `task = std::move(e->task)`. -/
theorem Inv.moveOut (h : Inv s) {back : Word} {e : Elem τ} (hp : s.pc t = .popMove back)
    (hm : Moved s s' t (.popStore back (s.cell back.toNat).task))
    (hq : s'.q = Threads.write s.q back e) (he : e.state = (s.cell back.toNat).state)
    (htickets : s'.log.tickets = s.log.tickets) (hclaims : s'.log.claims = s.log.claims) :
    Inv s' := by
  have hpc := h.pcs t
  have hheld : (s.pc t).pops = some back.toNat := by rw [hp]; rfl
  obtain ⟨hsep, hfr, hbk, hfull, hfree⟩ := h.pop_apart hheld
  have hself := cell_write_self hq (p := back.toNat) rfl
  have hpush := hm.pushes (by rw [hp]; rfl)
  have hpop := hm.pops (by rw [hheld]; rfl)
  rw [hp] at hpc
  refine h.write hm hq htickets hclaims hsep hfr hbk (fun p hpp => by cases hpp)
    (fun p hpp => by rw [hheld]; exact hpp)
    ⟨by rw [St.backs, hclaims]; exact hpc.1, by rw [St.fronts, htickets]; exact hpc.2.1, ?_, ?_⟩ ?_
      ?_
  · rw [St.taskAt, htickets]
    exact hpc.2.2.1
  · rw [St.word, hself, he]
    exact hpc.2.2.2
  · intro p h1 h2 h3
    simp only [hpush] at h3
    have hc := cell_write hq (hfull p h1 h2)
    rw [hc, word_of_cell hc]
    exact h.full p h1 h2 h3
  · intro p h1 h2 h3
    simp only [hpop] at h3
    rw [word_of_cell (cell_write hq (hfree p h1 h2 fun hpe => h3 t _ hheld hpe.symm))]
    exact h.free p h1 h2 h3

/-- `e->state.store(back + kCapacity)`: the slot is free for the ticket one lap later. -/
theorem Inv.release (h : Inv s) {back : Word} {task x : τ} (hp : s.pc t = .popStore back task)
    (hm : Moved s s' t .idle)
    (hq : s'.q = Threads.write s.q back ⟨back + BitVec.ofNat 32 kCapacity, x⟩)
    (htickets : s'.log.tickets = s.log.tickets) (hclaims : s'.log.claims = s.log.claims)
    (hbound : s.fronts < 2 ^ 32 - kCapacity) : Inv s' := by
  have hheld : (s.pc t).pops = some back.toNat := by rw [hp]; rfl
  obtain ⟨hsep, hfr, hbk, hfull, hfree⟩ := h.pop_apart hheld
  have hself := cell_write_self hq (p := back.toNat + kCapacity)
    (pos_eq_iff.mpr (Nat.add_mod_right _ _))
  have hpush := hm.pushes (by rw [hp]; rfl)
  have hlt := ((h.pcs t).pops hheld).1
  have hle := h.le
  refine h.write hm hq htickets hclaims hsep hfr hbk (fun p hpp => by cases hpp)
    (fun p hpp => by cases hpp) trivial ?_ ?_
  · intro p h1 h2 h3
    simp only [hpush] at h3
    have hc := cell_write hq (hfull p h1 h2)
    rw [hc, word_of_cell hc]
    exact h.full p h1 h2 h3
  · intro p h1 h2 h3
    by_cases he : p = back.toNat + kCapacity
    · subst he
      rw [St.word, hself]
      show (back + BitVec.ofNat 32 kCapacity).toNat = _
      rw [BitVec.toNat_add, BitVec.toNat_ofNat]
      unfold kCapacity at *
      omega
    · rw [word_of_cell (cell_write hq (hfree p h1 h2 he))]
      refine h.free p h1 h2 fun u p' hu => ?_
      by_cases hut : u = t
      · rw [hut, hheld] at hu
        cases hu
        exact Ne.symm he
      · exact h3 u p' (by rw [hm.other hut]; exact hu)

theorem complete_le (g : Log τ) : g.complete ≤ g.tickets.length - g.claims := by
  have := List.countP_le_length (p := fun k => decide (k ∈ g.done))
    (l := (List.range g.tickets.length).drop g.claims)
  rwa [List.length_drop, List.length_range] at this

/-- The instant of a step is recorded. -/
theorem getElem_hist_tick (s : St τ) :
    s.tick.log.hist[s.log.hist.length]? = some s.log.complete := by
  simp [St.tick]

/-! ## The record -/

/-- The number of a `PushFront` call that has not taken a ticket. -/
def Pc.id : Pc τ → Option Nat
  | .pushLoad id _ | .pushState id _ _ | .pushCas id _ _ => some id
  | _ => none

/-- A `PushFront` call takes one ticket or gives its task back, never both. -/
structure Ids (s : St τ) : Prop where
  pending : ∀ t n, (s.pc t).id = some n →
    n < s.log.calls ∧ n ∉ s.log.tickets.map Prod.fst ∧ n ∉ s.log.rejected
  unique : ∀ t t' n, (s.pc t).id = some n → (s.pc t').id = some n → t = t'
  tickets_lt : ∀ n ∈ s.log.tickets.map Prod.fst, n < s.log.calls
  rejected_lt : ∀ n ∈ s.log.rejected, n < s.log.calls
  nodup : (s.log.tickets.map Prod.fst).Nodup
  apart : ∀ n ∈ s.log.rejected, n ∉ s.log.tickets.map Prod.fst

/-- A step that starts no push, takes no ticket and gives no task back. -/
theorem Ids.keep (h : Ids s) {pc : Pc τ} (hm : Moved s s' t pc)
    (htickets : s'.log.tickets = s.log.tickets) (hrejected : s'.log.rejected = s.log.rejected)
    (hcalls : s.log.calls ≤ s'.log.calls) (hid : pc.id = (s.pc t).id ∨ pc.id = none) : Ids s' := by
  have hold : ∀ u n, (s'.pc u).id = some n → (s.pc u).id = some n := fun u n hu => by
    by_cases hut : u = t
    · subst hut
      rw [hm.self] at hu
      rcases hid with he | he
      · rwa [he] at hu
      · rw [he] at hu
        cases hu
    · rwa [hm.other hut] at hu
  refine ⟨fun u n hu => ?_, fun u u' n hu hu' => h.unique u u' n (hold u n hu) (hold u' n hu'), ?_,
    ?_,
    ?_, ?_⟩
  · obtain ⟨h1, h2, h3⟩ := h.pending u n (hold u n hu)
    rw [htickets, hrejected]
    exact ⟨Nat.lt_of_lt_of_le h1 hcalls, h2, h3⟩
  · rw [htickets]
    exact fun n hn => Nat.lt_of_lt_of_le (h.tickets_lt n hn) hcalls
  · rw [hrejected]
    exact fun n hn => Nat.lt_of_lt_of_le (h.rejected_lt n hn) hcalls
  · rw [htickets]
    exact h.nodup
  · rw [htickets, hrejected]
    exact h.apart

/-- A call of `PushFront` gets a number of its own. -/
theorem Ids.enter (h : Ids s) {pc : Pc τ} (hm : Moved s s' t pc)
    (htickets : s'.log.tickets = s.log.tickets) (hrejected : s'.log.rejected = s.log.rejected)
    (hcalls : s'.log.calls = s.log.calls + 1) (hid : pc.id = some s.log.calls) : Ids s' := by
  refine ⟨fun u n hu => ?_, fun u u' n => ?_, ?_, ?_, ?_, ?_⟩
  · rw [htickets, hrejected, hcalls]
    by_cases hut : u = t
    · subst hut
      rw [hm.self, hid] at hu
      cases hu
      exact ⟨Nat.lt_succ_self _, fun hn => Nat.lt_irrefl _ (h.tickets_lt _ hn),
        fun hn => Nat.lt_irrefl _ (h.rejected_lt _ hn)⟩
    · rw [hm.other hut] at hu
      obtain ⟨h1, h2, h3⟩ := h.pending u n hu
      exact ⟨Nat.lt_succ_of_lt h1, h2, h3⟩
  · exact hm.unique_new (f := Pc.id) h.unique (fun u n hu => (h.pending u n hu).1) hid u u' n
  · rw [htickets, hcalls]
    exact fun n hn => Nat.lt_succ_of_lt (h.tickets_lt n hn)
  · rw [hrejected, hcalls]
    exact fun n hn => Nat.lt_succ_of_lt (h.rejected_lt n hn)
  · rw [htickets]
    exact h.nodup
  · rw [htickets, hrejected]
    exact h.apart

/-- Call `n` takes a ticket. -/
theorem Ids.take (h : Ids s) {pc : Pc τ} (hm : Moved s s' t pc) {n : Nat} {task : τ}
    (hold : (s.pc t).id = some n) (htickets : s'.log.tickets = s.log.tickets ++ [(n, task)])
    (hrejected : s'.log.rejected = s.log.rejected) (hcalls : s'.log.calls = s.log.calls)
    (hid : pc.id = none) : Ids s' := by
  obtain ⟨hlt, hnot, hnrej⟩ := h.pending t n hold
  have hmap : s'.log.tickets.map Prod.fst = s.log.tickets.map Prod.fst ++ [n] := by
    rw [htickets, List.map_append, List.map_singleton]
  refine ⟨fun u m hu => ?_, fun u u' m hu hu' => ?_, ?_, ?_, ?_, ?_⟩
  · obtain ⟨hu, hut⟩ := hm.of_gone (f := Pc.id) hid hu
    obtain ⟨h1, h2, h3⟩ := h.pending u m hu
    rw [hmap, hrejected, hcalls]
    refine ⟨h1, fun hmem => ?_, h3⟩
    rcases List.mem_append.mp hmem with hmem | hmem
    · exact h2 hmem
    · rw [List.mem_singleton] at hmem
      subst hmem
      exact hut (h.unique u t m hu hold)
  · exact h.unique u u' m (hm.of_gone (f := Pc.id) hid hu).1 (hm.of_gone (f := Pc.id) hid hu').1
  · rw [hmap, hcalls]
    intro m hmem
    rcases List.mem_append.mp hmem with hmem | hmem
    · exact h.tickets_lt m hmem
    · rw [List.mem_singleton] at hmem
      exact hmem ▸ hlt
  · rw [hrejected, hcalls]
    exact h.rejected_lt
  · rw [hmap]
    exact List.nodup_append.mpr ⟨h.nodup, by simp, fun a ha b hb he => by
      rw [List.mem_singleton] at hb
      exact hnot (hb ▸ he ▸ ha)⟩
  · rw [hmap, hrejected]
    intro m hm' hmem
    rcases List.mem_append.mp hmem with hmem | hmem
    · exact h.apart m hm' hmem
    · rw [List.mem_singleton] at hmem
      exact hnrej (hmem ▸ hm')

/-- Call `n` gives its task back. -/
theorem Ids.reject (h : Ids s) {pc : Pc τ} (hm : Moved s s' t pc) {n : Nat}
    (hold : (s.pc t).id = some n) (htickets : s'.log.tickets = s.log.tickets)
    (hrejected : s'.log.rejected = s.log.rejected ++ [n]) (hcalls : s'.log.calls = s.log.calls)
    (hid : pc.id = none) : Ids s' := by
  obtain ⟨hlt, hnot, -⟩ := h.pending t n hold
  refine ⟨fun u m hu => ?_, fun u u' m hu hu' => ?_, ?_, ?_, ?_, ?_⟩
  · obtain ⟨hu, hut⟩ := hm.of_gone (f := Pc.id) hid hu
    obtain ⟨h1, h2, h3⟩ := h.pending u m hu
    rw [htickets, hrejected, hcalls]
    refine ⟨h1, h2, fun hmem => ?_⟩
    rcases List.mem_append.mp hmem with hmem | hmem
    · exact h3 hmem
    · rw [List.mem_singleton] at hmem
      subst hmem
      exact hut (h.unique u t m hu hold)
  · exact h.unique u u' m (hm.of_gone (f := Pc.id) hid hu).1 (hm.of_gone (f := Pc.id) hid hu').1
  · rw [htickets, hcalls]
    exact h.tickets_lt
  · rw [hrejected, hcalls]
    intro m hmem
    rcases List.mem_append.mp hmem with hmem | hmem
    · exact h.rejected_lt m hmem
    · rw [List.mem_singleton] at hmem
      exact hmem ▸ hlt
  · rw [htickets]
    exact h.nodup
  · rw [htickets, hrejected]
    intro m hmem
    rcases List.mem_append.mp hmem with hmem | hmem
    · exact h.apart m hmem
    · rw [List.mem_singleton] at hmem
      exact hmem ▸ hnot

/-- The pushes and the pops that are over: a push whose ticket no thread holds any more is complete,
and a claimed ticket is held by its pop until that pop has returned the ticket's task. -/
structure Record (s : St τ) : Prop where
  done : ∀ p, p ∈ s.log.done ↔ p < s.fronts ∧ ∀ t, (s.pc t).pushes ≠ some p
  popped : ∀ p x, (p, x) ∈ s.log.pops →
    p < s.backs ∧ s.taskAt p = some x ∧ ∀ t, (s.pc t).pops ≠ some p
  once : (s.log.pops.map Prod.fst).Nodup
  all : ∀ p, p < s.backs → (∃ t, (s.pc t).pops = some p) ∨ p ∈ s.log.pops.map Prod.fst

theorem Record.keep (h : Record s) {pc : Pc τ} (hm : Moved s s' t pc)
    (htickets : s'.log.tickets = s.log.tickets) (hclaims : s'.log.claims = s.log.claims)
    (hdone : s'.log.done = s.log.done) (hpops : s'.log.pops = s.log.pops)
    (hpush : pc.pushes = (s.pc t).pushes) (hpop : pc.pops = (s.pc t).pops) : Record s' := by
  have hF : s'.fronts = s.fronts := by rw [St.fronts, htickets]; rfl
  have hB : s'.backs = s.backs := hclaims
  have htask : ∀ p, s'.taskAt p = s.taskAt p := fun p => by rw [St.taskAt, htickets]; rfl
  refine ⟨?_, ?_, ?_, ?_⟩
  · simp only [hdone, hF, hm.pushes hpush]
    exact h.done
  · simp only [hpops, hB, htask, hm.pops hpop]
    exact h.popped
  · rw [hpops]
    exact h.once
  · simp only [hpops, hB, hm.pops hpop]
    exact h.all

/-- A front ticket is taken. -/
theorem Record.take (h : Record s) {pc : Pc τ} (hm : Moved s s' t pc) {e : Nat × τ}
    (hold : (s.pc t).pushes = none) (hnew : pc.pushes = some s.fronts)
    (htickets : s'.log.tickets = s.log.tickets ++ [e]) (hclaims : s'.log.claims = s.log.claims)
    (hdone : s'.log.done = s.log.done) (hpops : s'.log.pops = s.log.pops)
    (hpop : pc.pops = (s.pc t).pops) : Record s' := by
  have hF : s'.fronts = s.fronts + 1 := by
    rw [St.fronts, htickets, List.length_append, List.length_singleton]; rfl
  have hB : s'.backs = s.backs := hclaims
  refine ⟨fun p => ?_, fun p x hp => ?_, ?_, ?_⟩
  · rw [hdone, h.done, hF]
    constructor
    · rintro ⟨h1, h2⟩
      refine ⟨Nat.lt_succ_of_lt h1, fun u hu => ?_⟩
      by_cases hut : u = t
      · rw [hut, hm.self, hnew] at hu
        cases hu
        exact Nat.lt_irrefl _ h1
      · rw [hm.other hut] at hu
        exact h2 u hu
    · rintro ⟨h1, h2⟩
      have hne : p ≠ s.fronts := fun he => h2 t (by rw [hm.self, hnew, he])
      refine ⟨by omega, fun u hu => h2 u ?_⟩
      have hut : u ≠ t := fun he => by
        rw [he, hold] at hu
        cases hu
      rwa [hm.other hut]
  · rw [hpops] at hp
    obtain ⟨h1, h2, h3⟩ := h.popped p x hp
    refine ⟨by omega, ?_, fun u => by rw [hm.pops hpop]; exact h3 u⟩
    rw [St.taskAt, htickets, List.getElem?_append_left (taskAt_lt h2)]
    exact h2
  · rw [hpops]
    exact h.once
  · simp only [hpops, hB, hm.pops hpop]
    exact h.all

/-- A push has stored the slot's state. -/
theorem Record.publish (h : Record s) {pc : Pc τ} (hm : Moved s s' t pc) {f : Nat}
    (hold : (s.pc t).pushes = some f) (hlt : f < s.fronts)
    (hunique : ∀ u, (s.pc u).pushes = some f → u = t) (hnew : pc.pushes = none)
    (htickets : s'.log.tickets = s.log.tickets) (hclaims : s'.log.claims = s.log.claims)
    (hdone : s'.log.done = s.log.done ++ [f]) (hpops : s'.log.pops = s.log.pops)
    (hpop : pc.pops = (s.pc t).pops) : Record s' := by
  have hF : s'.fronts = s.fronts := by rw [St.fronts, htickets]; rfl
  have hB : s'.backs = s.backs := hclaims
  have htask : ∀ p, s'.taskAt p = s.taskAt p := fun p => by rw [St.taskAt, htickets]; rfl
  refine ⟨fun p => ?_, ?_, ?_, ?_⟩
  · rw [hdone, List.mem_append, List.mem_singleton, h.done, hF]
    constructor
    · rintro (⟨h1, h2⟩ | rfl)
      · exact ⟨h1, fun u hu => h2 u (hm.of_gone (f := Pc.pushes) hnew hu).1⟩
      · refine ⟨hlt, fun u hu => ?_⟩
        obtain ⟨hu, hut⟩ := hm.of_gone (f := Pc.pushes) hnew hu
        exact hut (hunique u hu)
    · rintro ⟨h1, h2⟩
      by_cases he : p = f
      · exact .inr he
      · refine .inl ⟨h1, fun u hu => h2 u ?_⟩
        have hut : u ≠ t := fun hut => by
          rw [hut, hold] at hu
          exact he (Option.some.inj hu).symm
        rwa [hm.other hut]
  · simp only [hpops, hB, htask, hm.pops hpop]
    exact h.popped
  · rw [hpops]
    exact h.once
  · simp only [hpops, hB, hm.pops hpop]
    exact h.all

/-- A back ticket is claimed. -/
theorem Record.claim (h : Record s) {pc : Pc τ} (hm : Moved s s' t pc)
    (hold : (s.pc t).pops = none) (hnew : pc.pops = some s.backs)
    (htickets : s'.log.tickets = s.log.tickets) (hclaims : s'.log.claims = s.log.claims + 1)
    (hdone : s'.log.done = s.log.done) (hpops : s'.log.pops = s.log.pops)
    (hpush : pc.pushes = (s.pc t).pushes) : Record s' := by
  have hF : s'.fronts = s.fronts := by rw [St.fronts, htickets]; rfl
  have hB : s'.backs = s.backs + 1 := hclaims
  have htask : ∀ p, s'.taskAt p = s.taskAt p := fun p => by rw [St.taskAt, htickets]; rfl
  refine ⟨?_, fun p x hp => ?_, ?_, fun p hp => ?_⟩
  · simp only [hdone, hF, hm.pushes hpush]
    exact h.done
  · rw [hpops] at hp
    obtain ⟨h1, h2, h3⟩ := h.popped p x hp
    refine ⟨by omega, by rw [htask]; exact h2, fun u hu => ?_⟩
    by_cases hut : u = t
    · rw [hut, hm.self, hnew] at hu
      cases hu
      exact Nat.lt_irrefl _ h1
    · rw [hm.other hut] at hu
      exact h3 u hu
  · rw [hpops]
    exact h.once
  · rw [hpops]
    by_cases he : p = s.backs
    · exact .inl ⟨t, by rw [hm.self, hnew, he]⟩
    · rcases h.all p (by omega) with ⟨u, hu⟩ | hmem
      · have hut : u ≠ t := fun hut => by
          rw [hut, hold] at hu
          cases hu
        exact .inl ⟨u, by rw [hm.other hut]; exact hu⟩
      · exact .inr hmem

/-- A pop returns its task. -/
theorem Record.release (h : Record s) {pc : Pc τ} (hm : Moved s s' t pc) {b : Nat} {x : τ}
    (hold : (s.pc t).pops = some b) (hlt : b < s.backs) (hx : s.taskAt b = some x)
    (hunique : ∀ u, (s.pc u).pops = some b → u = t) (hnew : pc.pops = none)
    (htickets : s'.log.tickets = s.log.tickets) (hclaims : s'.log.claims = s.log.claims)
    (hdone : s'.log.done = s.log.done) (hpops : s'.log.pops = s.log.pops ++ [(b, x)])
    (hpush : pc.pushes = (s.pc t).pushes) : Record s' := by
  have hF : s'.fronts = s.fronts := by rw [St.fronts, htickets]; rfl
  have hB : s'.backs = s.backs := hclaims
  have htask : ∀ p, s'.taskAt p = s.taskAt p := fun p => by rw [St.taskAt, htickets]; rfl
  have hnot : b ∉ s.log.pops.map Prod.fst := by
    intro hmem
    obtain ⟨⟨p, y⟩, hpy, rfl⟩ := List.mem_map.mp hmem
    exact (h.popped p y hpy).2.2 t hold
  refine ⟨?_, fun p y hp => ?_, ?_, fun p hp => ?_⟩
  · simp only [hdone, hF, hm.pushes hpush]
    exact h.done
  · rw [hpops, List.mem_append, List.mem_singleton] at hp
    rw [hB, htask]
    rcases hp with hp | hp
    · obtain ⟨h1, h2, h3⟩ := h.popped p y hp
      exact ⟨h1, h2, fun u hu => h3 u (hm.of_gone (f := Pc.pops) hnew hu).1⟩
    · cases hp
      refine ⟨hlt, hx, fun u hu => ?_⟩
      obtain ⟨hu, hut⟩ := hm.of_gone (f := Pc.pops) hnew hu
      exact hut (hunique u hu)
  · rw [hpops, List.map_append, List.map_singleton]
    exact List.nodup_append.mpr ⟨h.once, by simp, fun p hp q hq he => by
      rw [List.mem_singleton] at hq
      have hpb : p = b := he.trans hq
      exact hnot (hpb ▸ hp)⟩
  · rw [hpops, List.map_append, List.map_singleton, List.mem_append, List.mem_singleton]
    rcases h.all p (by omega) with ⟨u, hu⟩ | hmem
    · by_cases hut : u = t
      · rw [hut, hold] at hu
        exact .inr (.inr (Option.some.inj hu).symm)
      · exact .inl ⟨u, by rw [hm.other hut]; exact hu⟩
    · exact .inr (.inl hmem)

/-- Every answer of `Size` is at least the number of complete unclaimed tasks at some instant of the
call. -/
def SizesOk (g : Log τ) : Prop :=
  ∀ since till v, (since, till, v) ∈ g.sizes →
    ∃ i n, since ≤ i ∧ i ≤ till ∧ g.hist[i]? = some n ∧ n ≤ v

theorem SizesOk.mono {g g' : Log τ} (h : SizesOk g) {ns : List Nat} (hhist : g'.hist = g.hist ++ ns)
    (hsizes : g'.sizes = g.sizes) : SizesOk g' := by
  intro since till v hv
  rw [hsizes] at hv
  obtain ⟨i, n, h1, h2, h3, h4⟩ := h since till v hv
  refine ⟨i, n, h1, h2, ?_, h4⟩
  rw [hhist, List.getElem?_append_left (List.getElem?_eq_some_iff.mp h3).1]
  exact h3

theorem SizesOk.add {g g' : Log τ} (h : SizesOk g) {ns : List Nat} {since v : Nat}
    (hhist : g'.hist = g.hist ++ ns) (hsizes : g'.sizes = g.sizes ++ [(since, g.hist.length, v)])
    (hseen : g.Seen since v) : SizesOk g' := by
  have hkeep : ∀ {i n}, g.hist[i]? = some n → g'.hist[i]? = some n := fun {i n} hi => by
    rw [hhist, List.getElem?_append_left (List.getElem?_eq_some_iff.mp hi).1]
    exact hi
  intro since' till v' hv
  rw [hsizes, List.mem_append, List.mem_singleton] at hv
  rcases hv with hv | hv
  · obtain ⟨i, n, h1, h2, h3, h4⟩ := h since' till v' hv
    exact ⟨i, n, h1, h2, hkeep h3, h4⟩
  · cases hv
    obtain ⟨i, n, h1, h2, h3⟩ := hseen
    exact ⟨i, n, h1, Nat.le_of_lt (List.getElem?_eq_some_iff.mp h2).1, hkeep h2, h3⟩

/-- Everything that is kept. -/
structure Good (s : St τ) : Prop where
  inv : Inv s
  ids : Ids s
  record : Record s
  sizes : SizesOk s.log

/-- A step that changes neither the ring nor the tickets, and ends no call with an answer. -/
theorem Good.quiet (h : Good s) {pc pc' : Pc τ} (hp : s.pc t = pc) (hm : Moved s s' t pc')
    (hq : s'.q = s.q) (hlog : s'.log = { s.log with calls := s'.log.calls, hist := s'.log.hist })
    (hcalls : s.log.calls ≤ s'.log.calls) (hpush : pc'.pushes = pc.pushes)
    (hpop : pc'.pops = pc.pops) (hid : pc'.id = pc.id ∨ pc'.id = none) (hpc : PcOk s' pc') :
    Good s' := by
  subst hp
  have htickets : s'.log.tickets = s.log.tickets := by rw [hlog]
  have hclaims : s'.log.claims = s.log.claims := by rw [hlog]
  obtain ⟨n, hhist⟩ := hm.hist
  exact ⟨h.inv.quiet hm hq htickets hclaims hpush hpop hpc,
    h.ids.keep hm htickets (by rw [hlog]) hcalls hid,
    h.record.keep hm htickets hclaims (by rw [hlog]) (by rw [hlog]) hpush hpop,
    h.sizes.mono hhist (by rw [hlog])⟩

/-- A step of one thread keeps the invariants. -/
theorem Good.move [Inhabited τ] (h : Good s) (hmv : Threads.move s t = some s')
    (hbound : s'.fronts < 2 ^ 32 - kCapacity) : Good s'.tick := by
  have hpc := h.inv.pcs t
  have hle := h.inv.le
  cases hp : s.pc t with
  | idle => simp [Threads.move, hp] at hmv
  | pushLoad id task =>
    simp only [Threads.move, hp, Option.some.injEq] at hmv
    subst hmv
    exact h.quiet hp ⟨rfl, _, rfl⟩ rfl rfl (Nat.le_refl _) rfl rfl (.inl rfl)
      (Nat.le_of_eq h.inv.front)
  | pushState id task front =>
    rw [hp] at hpc
    simp only [Threads.move, hp, elem_eq_cell] at hmv
    split_ifs at hmv with h0 hneg
    · cases hmv
      refine h.quiet hp ⟨rfl, _, rfl⟩ rfl rfl (Nat.le_refl _) rfl rfl (.inl rfl) ⟨hpc, fun he => ?_⟩
      -- the loaded state is the front ticket
      have hw : s.word front.toNat = front.toNat := by
        unfold diff at h0
        show (s.cell front.toNat).state.toNat = _
        omega
      have he' : front.toNat = s.fronts := he
      rwa [he'] at hw
    · cases hmv
      exact ⟨h.inv.quiet (t := t) ⟨rfl, _, rfl⟩ rfl rfl rfl (by rw [hp]; rfl) (by rw [hp]; rfl)
        trivial,
        h.ids.reject (t := t) ⟨rfl, _, rfl⟩ (by rw [hp]; rfl) rfl rfl rfl rfl,
        h.record.keep (t := t) ⟨rfl, _, rfl⟩ rfl rfl rfl rfl (by rw [hp]; rfl) (by rw [hp]; rfl),
          h.sizes.mono rfl rfl⟩
    · cases hmv
      exact h.quiet hp ⟨rfl, _, rfl⟩ rfl rfl (Nat.le_refl _) rfl rfl (.inl rfl) trivial
  | pushCas id task front =>
    rw [hp] at hpc
    simp only [Threads.move, hp] at hmv
    split_ifs at hmv with heq
    · cases hmv
      have hfront : front.toNat = s.fronts := by rw [← heq]; exact h.inv.front
      exact ⟨h.inv.takeFront (t := t) ⟨rfl, _, rfl⟩ (by rw [hp]; exact ⟨rfl, rfl⟩) hfront
        (hpc.2 hfront) rfl rfl rfl
          (Nat.lt_of_lt_of_le hbound (Nat.sub_le _ _)),
        h.ids.take (t := t) ⟨rfl, _, rfl⟩ (by rw [hp]; rfl) rfl rfl rfl rfl,
        h.record.take (t := t) ⟨rfl, _, rfl⟩ (by rw [hp]; rfl) (congrArg some hfront) rfl rfl rfl
          rfl (by rw [hp]; rfl),
        h.sizes.mono rfl rfl⟩
    · cases hmv
      exact h.quiet hp ⟨rfl, _, rfl⟩ rfl rfl (Nat.le_refl _) rfl rfl (.inl rfl)
        (Nat.le_of_eq h.inv.front)
  | pushMove task front =>
    simp only [Threads.move, hp, elem_eq_cell, Option.some.injEq] at hmv
    subst hmv
    exact ⟨h.inv.fill hp ⟨rfl, _, rfl⟩ rfl rfl rfl, h.ids.keep (t := t) ⟨rfl, _, rfl⟩ rfl rfl
      (Nat.le_refl _) (.inr rfl),
      h.record.keep (t := t) ⟨rfl, _, rfl⟩ rfl rfl rfl rfl (by rw [hp]; rfl) (by rw [hp]; rfl),
        h.sizes.mono rfl rfl⟩
  | pushStore front =>
    simp only [Threads.move, hp, elem_eq_cell, Option.some.injEq] at hmv
    subst hmv
    have hheld : (s.pc t).pushes = some front.toNat := by rw [hp]; rfl
    exact ⟨h.inv.publish hp ⟨rfl, _, rfl⟩ rfl rfl rfl (Nat.lt_of_lt_of_le hbound (Nat.sub_le _ _)),
      h.ids.keep (t := t) ⟨rfl, _, rfl⟩ rfl rfl (Nat.le_refl _) (.inr rfl),
      h.record.publish (t := t) ⟨rfl, _, rfl⟩ hheld (hpc.pushes hheld).2.1
        (fun u hu => h.inv.push_unique u t _ hu hheld) rfl rfl rfl rfl rfl (by rw [hp]; rfl),
      h.sizes.mono rfl rfl⟩
  | popLoad =>
    simp only [Threads.move, hp, Option.some.injEq] at hmv
    subst hmv
    exact h.quiet hp ⟨rfl, _, rfl⟩ rfl rfl (Nat.le_refl _) rfl rfl (.inr rfl)
      (Nat.le_of_eq h.inv.back)
  | popState back =>
    rw [hp] at hpc
    simp only [Threads.move, hp, elem_eq_cell] at hmv
    split_ifs at hmv with h0 hneg
    · cases hmv
      refine h.quiet hp ⟨rfl, _, rfl⟩ rfl rfl (Nat.le_refl _) rfl rfl (.inr rfl) ⟨hpc, fun he => ?_⟩
      -- the loaded state is the back ticket plus one
      have hw : s.word back.toNat = back.toNat + 1 := by
        have hlt : back.toNat ≤ s.backs := hpc
        have hb : s.fronts < 2 ^ 32 - kCapacity := hbound
        unfold diff at h0
        rw [BitVec.toNat_add, show (1 : Word).toNat = 1 from rfl] at h0
        show (s.cell back.toNat).state.toNat = _
        unfold kCapacity at hb
        omega
      have he' : back.toNat = s.backs := he
      rwa [he'] at hw
    · cases hmv
      exact h.quiet hp ⟨rfl, _, rfl⟩ rfl rfl (Nat.le_refl _) rfl rfl (.inr rfl) trivial
    · cases hmv
      exact h.quiet hp ⟨rfl, _, rfl⟩ rfl rfl (Nat.le_refl _) rfl rfl (.inr rfl) trivial
  | popCas back =>
    rw [hp] at hpc
    simp only [Threads.move, hp] at hmv
    split_ifs at hmv with heq
    · cases hmv
      have hback : back.toNat = s.backs := by rw [← heq]; exact h.inv.back
      exact ⟨h.inv.claim (t := t) ⟨rfl, _, rfl⟩ (by rw [hp]; exact ⟨rfl, rfl⟩) hback (hpc.2 hback)
        rfl rfl rfl
          (Nat.lt_of_lt_of_le hbound (Nat.sub_le _ _)),
        h.ids.keep (t := t) ⟨rfl, _, rfl⟩ rfl rfl (Nat.le_refl _) (.inr rfl),
        h.record.claim (t := t) ⟨rfl, _, rfl⟩ (by rw [hp]; rfl) (congrArg some hback) rfl rfl rfl
          rfl (by rw [hp]; rfl),
        h.sizes.mono rfl rfl⟩
    · cases hmv
      exact h.quiet hp ⟨rfl, _, rfl⟩ rfl rfl (Nat.le_refl _) rfl rfl (.inr rfl)
        (Nat.le_of_eq h.inv.back)
  | popMove back =>
    simp only [Threads.move, hp, elem_eq_cell, Option.some.injEq] at hmv
    subst hmv
    exact ⟨h.inv.moveOut hp ⟨rfl, _, rfl⟩ rfl rfl rfl rfl, h.ids.keep (t := t) ⟨rfl, _, rfl⟩ rfl
      rfl (Nat.le_refl _) (.inr rfl),
      h.record.keep (t := t) ⟨rfl, _, rfl⟩ rfl rfl rfl rfl (by rw [hp]; rfl) (by rw [hp]; rfl),
        h.sizes.mono rfl rfl⟩
  | popStore back task =>
    simp only [Threads.move, hp, elem_eq_cell, Option.some.injEq] at hmv
    subst hmv
    have hheld : (s.pc t).pops = some back.toNat := by rw [hp]; rfl
    rw [hp] at hpc
    exact ⟨h.inv.release hp ⟨rfl, _, rfl⟩ rfl rfl rfl hbound, h.ids.keep (t := t) ⟨rfl, _, rfl⟩ rfl
      rfl (Nat.le_refl _) (.inr rfl),
      h.record.release (t := t) ⟨rfl, _, rfl⟩ hheld hpc.1 hpc.2.2.1
        (fun u hu => h.inv.pop_unique u t _ hu hheld) rfl rfl rfl rfl rfl (by rw [hp]; rfl),
      h.sizes.mono rfl rfl⟩
  | sizeFront since =>
    rw [hp] at hpc
    simp only [Threads.move, hp, Option.some.injEq] at hmv
    subst hmv
    refine h.quiet hp ⟨rfl, _, rfl⟩ rfl rfl (Nat.le_refl _) rfl rfl (.inr rfl)
      ⟨?_, Nat.le_of_eq h.inv.front⟩
    exact Nat.lt_of_lt_of_le hpc (by simp [St.tick, St.goto])
  | sizeBack since front =>
    rw [hp] at hpc
    simp only [Threads.move, hp, Option.some.injEq] at hmv
    subst hmv
    refine h.quiet hp ⟨rfl, _, rfl⟩ rfl rfl (Nat.le_refl _) rfl rfl (.inr rfl)
      ⟨Nat.lt_of_lt_of_le hpc.1 (by simp [St.tick, St.goto]), hpc.2, fun he => ?_⟩
    -- the front has not moved since it was loaded, so the two words are from one instant
    have hback : s.q.mBack.toNat = s.backs := h.inv.back
    refine ⟨by rw [hback]; exact hle, s.log.hist.length, s.log.complete, Nat.le_of_lt hpc.1,
      getElem_hist_tick (s.goto t _), ?_⟩
    have hc := complete_le s.log
    have hcap := h.inv.cap
    rw [hback]
    show _ ≤ min kCapacity (s.fronts - s.backs)
    unfold St.fronts St.backs at *
    omega
  | sizeFront1 since front back =>
    rw [hp] at hpc
    simp only [Threads.move, hp] at hmv
    split_ifs at hmv with heq
    · cases hmv
      exact h.quiet hp ⟨rfl, _, rfl⟩ rfl rfl (Nat.le_refl _) rfl rfl (.inr rfl)
        ⟨Nat.lt_of_lt_of_le hpc.1 (by simp [St.tick, St.goto]), Nat.le_of_eq h.inv.front⟩
    · cases hmv
      refine ⟨h.inv.quiet (t := t) ⟨rfl, _, rfl⟩ rfl rfl rfl (by rw [hp]; rfl) (by rw [hp]; rfl)
        trivial,
        h.ids.keep (t := t) ⟨rfl, _, rfl⟩ rfl rfl (Nat.le_refl _) (.inr rfl),
        h.record.keep (t := t) ⟨rfl, _, rfl⟩ rfl rfl rfl rfl (by rw [hp]; rfl) (by rw [hp]; rfl),
        h.sizes.add rfl rfl ?_⟩
      have hfront : front.toNat = s.fronts := by
        rw [Classical.not_not.mp heq]
        exact h.inv.front
      obtain ⟨hb, hseen⟩ := hpc.2.2 hfront
      have hv : (front - back).toNat = s.fronts - back.toNat := by
        rw [BitVec.toNat_sub, hfront]
        have : s.fronts < 2 ^ 32 - kCapacity := hbound
        omega
      rw [hv]
      exact hseen

theorem Good.step [Inhabited τ] (h : Good s) {l : Label τ} (hs : Threads.step s l = some s')
    (hbound : s'.fronts < 2 ^ 32 - kCapacity) : Good s' := by
  obtain ⟨s₁, hact, rfl⟩ := Option.map_eq_some_iff.mp hs
  cases l with
  | move t => exact h.move hact hbound
  | call t c =>
    simp only [act] at hact
    split at hact
    · rename_i hp
      cases hact
      cases c with
      | pushFront task =>
        exact ⟨h.inv.quiet (t := t) ⟨rfl, _, rfl⟩ rfl rfl rfl (by rw [hp]; rfl) (by rw [hp]; rfl)
          trivial,
          h.ids.enter (t := t) ⟨rfl, _, rfl⟩ rfl rfl rfl rfl,
          h.record.keep (t := t) ⟨rfl, _, rfl⟩ rfl rfl rfl rfl (by rw [hp]; rfl) (by rw [hp]; rfl),
            h.sizes.mono rfl rfl⟩
      | popBack =>
        exact h.quiet hp ⟨rfl, _, rfl⟩ rfl rfl (Nat.le_succ _) rfl rfl (.inr rfl) trivial
      | size =>
        refine h.quiet hp ⟨rfl, _, rfl⟩ rfl rfl (Nat.le_succ _) rfl rfl (.inr rfl) ?_
        show s.log.hist.length < _
        simp [St.tick, St.goto]
    · cases hact

/-- A fresh queue meets the invariants. -/
theorem good_start [Inhabited τ] : Good (start : St τ) where
  inv := {
    front := rfl
    back := rfl
    le := Nat.le_refl _
    cap := Nat.zero_le _
    pcs := fun _ => trivial
    push_unique := fun _ _ _ h => by cases h
    pop_unique := fun _ _ _ h => by cases h
    full := fun _ _ h => absurd h (Nat.not_lt_zero _)
    free := fun p _ hp _ => by
      have hp : p < kCapacity := by simpa [start, St.backs] using hp
      show (BitVec.ofNat 32 (p % kCapacity)).toNat = p
      rw [BitVec.toNat_ofNat]
      unfold kCapacity at *
      omega }
  ids := {
    pending := fun _ _ h => by cases h
    unique := fun _ _ _ h => by cases h
    tickets_lt := fun _ h => by cases h
    rejected_lt := fun _ h => by cases h
    nodup := List.nodup_nil
    apart := fun _ h => by cases h }
  record := {
    done := fun _ => ⟨nofun, fun h => absurd h.1 (Nat.not_lt_zero _)⟩
    popped := fun _ _ h => by cases h
    once := List.nodup_nil
    all := fun _ h => absurd h (Nat.not_lt_zero _) }
  sizes := fun _ _ _ h => by cases h

theorem fronts_move [Inhabited τ] (hmv : Threads.move s t = some s') : s.fronts ≤ s'.fronts := by
  unfold Threads.move at hmv
  split at hmv <;> try dsimp only at hmv
  all_goals try split_ifs at hmv
  all_goals
    cases hmv
    try simp [St.fronts, St.goto]

/-- Front tickets are never given back. -/
theorem fronts_step [Inhabited τ] {l : Label τ} (hs : Threads.step s l = some s') :
    s.fronts ≤ s'.fronts := by
  obtain ⟨s₁, hact, rfl⟩ := Option.map_eq_some_iff.mp hs
  cases l with
  | move t =>
    show s.fronts ≤ s₁.fronts
    exact fronts_move hact
  | call t c =>
    simp only [act] at hact
    split at hact
    · cases hact
      exact Nat.le_refl _
    · cases hact

/-- The invariants hold as long as the front tickets have not come near the end of the words. -/
theorem good_of_reach [Inhabited τ] (hs : sys.Reach Any s)
    (hbound : s.fronts < 2 ^ 32 - kCapacity) : Good s := by
  induction hs with
  | init hi =>
    cases hi
    exact good_start
  | step _ _ hn ih => exact (ih (Nat.lt_of_le_of_lt (fronts_step hn) hbound)).step hn hbound

/-! ## What the queue guarantees -/

/-- The slot whose task a thread may write or move out: it has taken the slot's ticket and has not
stored the slot's state. -/
def Pc.holds : Pc τ → Option (Fin kCapacity)
  | .pushMove _ front | .pushStore front => some (slot front)
  | .popMove back | .popStore back _ => some (slot back)
  | _ => none

theorem Pc.holds_eq_some {pc : Pc τ} {i : Fin kCapacity} (h : pc.holds = some i) :
    ∃ p, pos p = i ∧ (pc.pushes = some p ∨ pc.pops = some p) := by
  cases pc <;> simp only [Pc.holds, reduceCtorEq, Option.some.injEq, slot_eq_pos] at h
  all_goals exact ⟨_, h, by simp [Pc.pushes, Pc.pops]⟩

/-- No two threads hold one slot. -/
theorem Inv.holds_unique (h : Inv s) {t' : Tid} {i : Fin kCapacity} (ht : (s.pc t).holds = some i)
    (ht' : (s.pc t').holds = some i) : t = t' := by
  obtain ⟨p, rfl, hp⟩ := Pc.holds_eq_some ht
  obtain ⟨p', he, hp'⟩ := Pc.holds_eq_some ht'
  by_contra hne
  rcases hp with hp | hp
  · exact (h.push_apart hp).1 t' p' (Ne.symm hne) hp' he
  · exact (h.pop_apart hp).1 t' p' (Ne.symm hne) hp' he

/-- When no thread is in a call, the ring holds the tickets that are taken and not claimed. -/
theorem Inv.holds_of_idle (h : Inv s) (hbound : s.fronts < 2 ^ 32 - kCapacity)
    (hidle : ∀ t, s.pc t = .idle) :
    Holds s.q ⟨(s.log.tickets.drop s.log.claims).map Prod.snd, s.fronts, s.backs⟩ := by
  have hle := h.le
  have hcap := h.cap
  have hcell : ∀ p, p < 2 ^ 32 → s.q.mArray (slot (BitVec.ofNat 32 p)) = s.cell p := fun p hp => by
    rw [slot_eq_pos, BitVec.toNat_ofNat, Nat.mod_eq_of_lt hp]
    rfl
  have hlen : ((s.log.tickets.drop s.log.claims).map Prod.snd).length = s.fronts - s.backs := by
    rw [List.length_map, List.length_drop]
    rfl
  refine ⟨⟨?_, ?_⟩, ?_, ?_, fun i hi => ?_, fun p h1 h2 => ?_⟩
  · show s.fronts = s.backs + ((s.log.tickets.drop s.log.claims).map Prod.snd).length
    omega
  · show ((s.log.tickets.drop s.log.claims).map Prod.snd).length ≤ kCapacity
    omega
  · show s.q.mFront = BitVec.ofNat 32 s.fronts
    rw [← h.front, BitVec.ofNat_toNat, BitVec.setWidth_eq]
  · show s.q.mBack = BitVec.ofNat 32 s.backs
    rw [← h.back, BitVec.ofNat_toNat, BitVec.setWidth_eq]
  · have hi : i < s.fronts - s.backs := hlen ▸ hi
    show s.q.mArray (slot (BitVec.ofNat 32 (s.backs + i))) = _
    rw [hcell _ (by omega)]
    obtain ⟨htask, hword⟩ := h.full (s.backs + i) (by omega) (by omega) fun t ht => by
      rw [hidle] at ht
      cases ht
    have hst : (s.cell (s.backs + i)).state = BitVec.ofNat 32 (s.backs + i + 1) := by
      rw [← BitVec.toNat_inj, BitVec.toNat_ofNat, Nat.mod_eq_of_lt (by omega)]
      exact hword
    have htk : (s.cell (s.backs + i)).task = ((s.log.tickets.drop s.log.claims).map Prod.snd)[i] := by
      refine Option.some.inj (htask.symm.trans ?_)
      rw [← List.getElem?_eq_getElem, List.getElem?_map, List.getElem?_drop]
      rfl
    rw [← hst]
    show s.cell (s.backs + i) = ⟨_, ((s.log.tickets.drop s.log.claims).map Prod.snd)[i]⟩
    rw [← htk]
  · show (s.q.mArray (slot (BitVec.ofNat 32 p))).state = _
    have h1 : s.fronts ≤ p := h1
    have h2 : p < s.backs + kCapacity := h2
    rw [hcell p (by omega), ← BitVec.toNat_inj, BitVec.toNat_ofNat, Nat.mod_eq_of_lt (by omega)]
    exact h.free p h1 h2 fun t p' ht => by
      rw [hidle] at ht
      cases ht

/-- What the queue guarantees in a state of a run. -/
structure Correct (s : St τ) : Prop where
  /-- No two threads may write or move out the task of one slot. -/
  exclusive : ∀ t t' i, (s.pc t).holds = some i → (s.pc t').holds = some i → t = t'
  /-- A popped task is the one of the front ticket with the number of its back ticket. -/
  popped : ∀ k x, (k, x) ∈ s.log.pops → ∃ id, s.log.tickets[k]? = some (id, x)
  once : (s.log.pops.map Prod.fst).Nodup
  /-- Back tickets are handed out in the order of their numbers, each for a ticket that is
  complete. -/
  order : ∀ t back, s.pc t = .popCas back → s.q.mBack = back →
    back.toNat = s.log.claims ∧ s.log.claims ∈ s.log.done
  pushed_once : (s.log.tickets.map Prod.fst).Nodup
  /-- A call that gave its task back has no ticket. -/
  rejected : ∀ id ∈ s.log.rejected, id ∉ s.log.tickets.map Prod.fst
  /-- When no thread is in a call, the first tickets are popped, the others are in the ring. -/
  quiescent : (∀ t, s.pc t = .idle) →
    (∀ k, k < s.log.claims ↔ k ∈ s.log.pops.map Prod.fst) ∧
    Holds s.q ⟨(s.log.tickets.drop s.log.claims).map Prod.snd, s.log.tickets.length, s.log.claims⟩
  /-- `Size` is not below the number of complete unclaimed tasks at some instant of the call. -/
  size : ∀ since till v, (since, till, v) ∈ s.log.sizes →
    ∃ i n, since ≤ i ∧ i ≤ till ∧ s.log.hist[i]? = some n ∧ n ≤ v

theorem Good.correct (h : Good s) (hbound : s.fronts < 2 ^ 32 - kCapacity) : Correct s where
  exclusive _ _ _ ht ht' := h.inv.holds_unique ht ht'
  popped k x hk := by
    obtain ⟨-, htask, -⟩ := h.record.popped k x hk
    obtain ⟨⟨id, x'⟩, he, rfl⟩ := Option.map_eq_some_iff.mp htask
    exact ⟨id, he⟩
  once := h.record.once
  order t back hp hb := by
    have hback : back.toNat = s.backs := by rw [← hb]; exact h.inv.back
    have hpc := h.inv.pcs t
    rw [hp] at hpc
    have hw := hpc.2 hback
    refine ⟨hback, (h.record.done _).mpr ⟨h.inv.not_empty hw, fun u hu => ?_⟩⟩
    have hu : s.word s.backs = s.backs := ((h.inv.pcs u).pushes hu).2.2
    omega
  pushed_once := h.ids.nodup
  rejected := h.ids.apart
  quiescent hidle := by
    refine ⟨fun k => ⟨fun hk => ?_, fun hk => ?_⟩, h.inv.holds_of_idle hbound hidle⟩
    · rcases h.record.all k hk with ⟨t, ht⟩ | hmem
      · rw [hidle] at ht
        cases ht
      · exact hmem
    · obtain ⟨⟨k, x⟩, hmem, rfl⟩ := List.mem_map.mp hk
      exact (h.record.popped k x hmem).1
  size := h.sizes

/-- Any number of threads, any interleaving: the queue is correct as long as fewer than
`2^32 - 1024` pushes have succeeded. -/
theorem queue_correct [Inhabited τ] (s : St τ) (hs : sys.Reach Any s)
    (hbound : s.log.tickets.length < 2 ^ 32 - kCapacity) : Correct s :=
  (good_of_reach hs hbound).correct hbound

/-- Two pushes and a pop overlap: the second push takes its ticket before the first has stored its
slot's state. -/
def overlapLabels : List (Label Nat) :=
  [.call 0 (.pushFront 7), .call 1 (.pushFront 8), .call 2 .popBack, .move 0, .move 0, .move 0,
    .move 1, .move 1, .move 1, .move 1, .move 1, .move 0, .move 0, .move 2, .move 2, .move 2,
    .move 2, .move 2]

/-- The state after `overlapLabels`. -/
def overlapState : St Nat := (runLabels step start overlapLabels).getD start

theorem queue_correct_overlap :
    overlapState.log.tickets.length < 2 ^ 32 - kCapacity ∧
      overlapState.log.pops = [(0, 7)] ∧ Correct overlapState :=
  ⟨by decide, by decide, queue_correct overlapState
    (reach_runLabels (fun _ => True) (.init rfl) overlapLabels (fun _ _ => trivial) (by rfl))
    (by decide)⟩

end Threads

end TaskQueue

end AsyncLib
