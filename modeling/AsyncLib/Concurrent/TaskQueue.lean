import Mathlib.Logic.Function.Basic
import AsyncLib.Lib.Fifo

/-!
# `TaskQueue` and `CoroutineTaskQueue`, called by one thread

`async/concurrent/task_queue.h` and `async/coroutine/coroutine_task_queue.{h,cpp}`. Both are the
same ring of 1024 slots. A slot's `state` word says for which ticket it is ready: a free slot
carries the ticket of the push that may fill it, a full slot that ticket plus one. `mFront`, `mBack`
and the states are `unsigned`, so they wrap modulo `2^32`, but the loops compare them after widening
to `int64_t`.

The loops are functions with fuel: `none` is a loop that has not left yet. Called by one thread,
`mFront` and `mBack` do not move between the load and the compare-exchange.

* `Holds q s`: the ring `q` holds the abstract queue `s` (`AsyncLib.Fifo`).
* `Stalls`: the two calls that do not return: a push on a full ring whose front ticket has just
  wrapped, a pop on an empty ring whose back ticket is about to wrap. There the difference of the
  widened words has the wrong sign and the loop reloads the same index for ever.
* `behavesAsFifo_iff`: a sequence of calls is answered as by a bounded FIFO, every call returning,
  iff no call of it stalls.
-/

namespace AsyncLib

/-- `unsigned`. -/
abbrev Word := BitVec 32

namespace TaskQueue

/-- `kCapacity` of both classes. -/
def kCapacity : Nat := 1024

/-- `kMask = kCapacity - 1`. -/
def kMask : Word := BitVec.ofNat 32 (kCapacity - 1)

/-- `Elem`: a slot. -/
structure Elem (τ : Type) where
  state : Word
  task : τ

/-- The members of `TaskQueue`. A task that was moved from, and a slot that was never filled, hold
`default`. -/
structure Ring (τ : Type) where
  mFront : Word
  mBack : Word
  mArray : Fin kCapacity → Elem τ

variable {τ : Type}

/-- The constructor: slot `i` is free for ticket `i`. -/
def fresh [Inhabited τ] : Ring τ := ⟨0, 0, fun i => ⟨BitVec.ofNat 32 i, default⟩⟩

theorem toNat_mask (w : Word) : (w &&& kMask).toNat = w.toNat % kCapacity := by
  rw [BitVec.toNat_and]
  exact Nat.and_two_pow_sub_one_eq_mod w.toNat 10

/-- The index `w & kMask`. -/
def slot (w : Word) : Fin kCapacity :=
  ⟨(w &&& kMask).toNat, by rw [toNat_mask]; exact Nat.mod_lt _ (by decide)⟩

/-- `static_cast<int64_t>(state) - static_cast<int64_t>(expected)`. -/
def diff (state expected : Word) : Int := (state.toNat : Int) - (expected.toNat : Int)

/-- The loop of `PushFront` from a loaded `front`. The answer is the task if the ring is full. -/
def pushFrontLoop : Nat → Ring τ → Word → τ → Option (Option τ × Ring τ)
  | 0, _, _, _ => none
  | fuel + 1, q, front, task =>
    let d := diff (q.mArray (slot front)).state front
    if d = 0 then
      -- `compare_exchange_strong(front, front + 1)`; a failed exchange reloads `front`
      if q.mFront = front then
        some (none, { q with
          mFront := front + 1
          mArray := Function.update q.mArray (slot front) ⟨front + 1, task⟩ })
      else pushFrontLoop fuel q q.mFront task
    else if d < 0 then some (some task, q)
    else pushFrontLoop fuel q q.mFront task

/-- The loop of `PopBack` from a loaded `back`. `leave` is what a task becomes by being taken. -/
def popBackLoop (leave : τ → τ) : Nat → Ring τ → Word → Option (Option τ × Ring τ)
  | 0, _, _ => none
  | fuel + 1, q, back =>
    let e := q.mArray (slot back)
    let d := diff e.state (back + 1)
    if d = 0 then
      if q.mBack = back then
        some (some e.task, { q with
          mBack := back + 1
          mArray := Function.update q.mArray (slot back)
            ⟨back + BitVec.ofNat 32 kCapacity, leave e.task⟩ })
      else popBackLoop leave fuel q q.mBack
    else if d < 0 then some (none, q)
    else popBackLoop leave fuel q q.mBack

/-- One call on a ring whose pops leave `leave task` in the slot. -/
def callWith (leave : τ → τ) (fuel : Nat) (q : Ring τ) : QueueCall τ → Option (Option τ × Ring τ)
  | .push task => pushFrontLoop fuel q q.mFront task
  | .pop => popBackLoop leave fuel q q.mBack

/-- A call on a `TaskQueue`: `TaskFunction task = std::move(e->task)`. -/
def call [Inhabited τ] : Nat → Ring τ → QueueCall τ → Option (Option τ × Ring τ) := callWith fun _ => default

/-- A call on a `CoroutineTaskQueue`: `ScheduleOperation *task = e->task`. -/
def coroutineCall : Nat → Ring τ → QueueCall τ → Option (Option τ × Ring τ) := callWith id

/-- The answers of the calls `cs`, one after another, each loop run for at most `fuel` rounds. -/
def answers (f : Nat → Ring τ → QueueCall τ → Option (Option τ × Ring τ)) (fuel : Nat) :
    Ring τ → List (QueueCall τ) → Option (List (Option τ))
  | _, [] => some []
  | q, c :: cs => do
    let (r, q') ← f fuel q c
    let rs ← answers f fuel q' cs
    pure (r :: rs)

/-- Every call of `cs` on a fresh queue returns, with the answer of a bounded FIFO. -/
def BehavesAsFifo [Inhabited τ] (f : Nat → Ring τ → QueueCall τ → Option (Option τ × Ring τ))
    (cs : List (QueueCall τ)) : Prop :=
  ∃ fuel, answers f fuel fresh cs = some (Fifo.rets kCapacity Fifo.empty cs)

/-- The calls that do not return: a push on a full ring within 1023 tickets after the front's wrap,
a pop on an empty ring at the last ticket before the back's wrap. -/
def Stalls (s : Fifo τ) : QueueCall τ → Prop
  | .push _ => s.items.length = kCapacity ∧ s.pushed % 2 ^ 32 < kCapacity - 1
  | .pop => s.items = [] ∧ s.popped % 2 ^ 32 = 2 ^ 32 - 1

/-! ## Tickets and slots -/

/-- The slot of ticket `p`. -/
theorem slot_ofNat (p : Nat) : (slot (BitVec.ofNat 32 p)).val = p % kCapacity := by
  show ((BitVec.ofNat 32 p) &&& kMask).toNat = _
  rw [toNat_mask, BitVec.toNat_ofNat]
  unfold kCapacity
  omega

theorem slot_eq_iff {p p' : Nat} :
    slot (BitVec.ofNat 32 p) = slot (BitVec.ofNat 32 p') ↔ p % kCapacity = p' % kCapacity := by
  rw [Fin.ext_iff, slot_ofNat, slot_ofNat]

/-- Two tickets less than a lap apart have different slots. -/
theorem slot_ne {p p' : Nat} (h : p ≠ p') (h1 : p < p' + kCapacity) (h2 : p' < p + kCapacity) :
    slot (BitVec.ofNat 32 p) ≠ slot (BitVec.ofNat 32 p') := by
  rw [Ne, slot_eq_iff]
  unfold kCapacity at *
  omega

theorem ofNat_succ (p : Nat) : BitVec.ofNat 32 p + 1 = BitVec.ofNat 32 (p + 1) := by
  rw [BitVec.ofNat_add]
  rfl

theorem diff_self (w : Word) : diff w w = 0 := by unfold diff; omega

/-- The two words of the widened comparison at a full ring: ticket `b` is the oldest one. -/
theorem diff_full (b : Nat) :
    diff (BitVec.ofNat 32 (b + 1)) (BitVec.ofNat 32 (b + kCapacity)) ≠ 0 ∧
    (diff (BitVec.ofNat 32 (b + 1)) (BitVec.ofNat 32 (b + kCapacity)) < 0 ↔
      ¬ (b + kCapacity) % 2 ^ 32 < kCapacity - 1) := by
  unfold diff kCapacity
  simp only [BitVec.toNat_ofNat]
  omega

/-- The two words of the widened comparison at an empty ring. -/
theorem diff_empty (b : Nat) :
    diff (BitVec.ofNat 32 b) (BitVec.ofNat 32 (b + 1)) ≠ 0 ∧
    (diff (BitVec.ofNat 32 b) (BitVec.ofNat 32 (b + 1)) < 0 ↔ ¬ b % 2 ^ 32 = 2 ^ 32 - 1) := by
  unfold diff
  simp only [BitVec.toNat_ofNat]
  omega

/-! ## The ring holds the abstract queue -/

/-- The ring `q` holds the queue `s`: the indices are the tickets used up, the slots of the queued
tickets are full, and the slots of the tickets of the next lap are free. -/
structure Holds (q : Ring τ) (s : Fifo τ) : Prop where
  ok : s.Ok kCapacity
  front : q.mFront = BitVec.ofNat 32 s.pushed
  back : q.mBack = BitVec.ofNat 32 s.popped
  full : ∀ i (h : i < s.items.length), q.mArray (slot (BitVec.ofNat 32 (s.popped + i))) =
    ⟨BitVec.ofNat 32 (s.popped + i + 1), s.items[i]⟩
  free : ∀ p, s.pushed ≤ p → p < s.popped + kCapacity →
    (q.mArray (slot (BitVec.ofNat 32 p))).state = BitVec.ofNat 32 p

theorem fresh_holds [Inhabited τ] : Holds (fresh : Ring τ) Fifo.empty where
  ok := Fifo.empty_ok _
  front := rfl
  back := rfl
  full i h := absurd h (Nat.not_lt_zero i)
  free p _ h := by
    have hp : p < kCapacity := by simpa [Fifo.empty] using h
    show BitVec.ofNat 32 (slot (BitVec.ofNat 32 p)).val = _
    rw [slot_ofNat, Nat.mod_eq_of_lt hp]

variable {q : Ring τ} {s : Fifo τ}

/-- A push with a free slot: the slot of the front ticket carries that ticket. -/
theorem Holds.push_free (h : Holds q s) (hn : s.items.length ≠ kCapacity) (task : τ) (fuel : Nat) :
    ∃ q', pushFrontLoop (fuel + 1) q q.mFront task = some (none, q') ∧
      Holds q' (s.next kCapacity (.push task)) := by
  obtain ⟨hp, hle⟩ := h.ok
  have hst := h.free s.pushed (Nat.le_refl _) (by omega)
  have hd : diff (q.mArray (slot q.mFront)).state q.mFront = 0 := by
    rw [h.front, hst]; exact diff_self _
  refine ⟨{ q with
    mFront := q.mFront + 1
    mArray := Function.update q.mArray (slot q.mFront) ⟨q.mFront + 1, task⟩ }, ?_, ?_⟩
  · simp only [pushFrontLoop, hd, ↓reduceIte]
  · have hok := h.ok.next (.push task)
    simp only [Fifo.next, hn, ↓reduceIte] at hok ⊢
    refine ⟨hok, by rw [h.front]; exact ofNat_succ _, h.back, fun i hi => ?_, fun p h1 h2 => ?_⟩
    · simp only [List.length_append, List.length_singleton] at hi
      simp only [h.front, ofNat_succ]
      by_cases hlast : i = s.items.length
      · -- the slot just filled
        subst hlast
        have he : s.popped + s.items.length = s.pushed := hp.symm
        simp only [he, Function.update_self]
        simp
      · have hi' : i < s.items.length := by omega
        rw [Function.update_of_ne (slot_ne (by omega) (by omega) (by omega)), h.full i hi']
        simp [List.getElem_append_left hi']
    · simp only at h1 h2
      simp only [h.front, ofNat_succ]
      rw [Function.update_of_ne (slot_ne (by omega) (by omega) (by omega))]
      exact h.free p (by omega) h2

/-- The widened comparison of a push on a full ring: the front ticket is one lap ahead of the
oldest one. -/
theorem Holds.diff_push_full (h : Holds q s) (hf : s.items.length = kCapacity) :
    diff (q.mArray (slot q.mFront)).state q.mFront ≠ 0 ∧
    (diff (q.mArray (slot q.mFront)).state q.mFront < 0 ↔
      ¬ s.pushed % 2 ^ 32 < kCapacity - 1) := by
  have hp : s.pushed = s.popped + kCapacity := by rw [h.ok.pushed, hf]
  have hs : slot q.mFront = slot (BitVec.ofNat 32 (s.popped + 0)) := by
    rw [h.front, slot_eq_iff, hp, Nat.add_zero, Nat.add_mod_right]
  rw [hs, h.full 0 (by rw [hf]; decide), h.front, hp]
  exact diff_full s.popped

/-- The widened comparison of a pop on an empty ring. -/
theorem Holds.diff_pop_empty (h : Holds q s) (he : s.items = []) :
    diff (q.mArray (slot q.mBack)).state (q.mBack + 1) ≠ 0 ∧
    (diff (q.mArray (slot q.mBack)).state (q.mBack + 1) < 0 ↔
      ¬ s.popped % 2 ^ 32 = 2 ^ 32 - 1) := by
  have hp : s.pushed = s.popped := by rw [h.ok.pushed, he]; rfl
  rw [h.back, h.free s.popped (Nat.le_of_eq hp) (by unfold kCapacity; omega), ofNat_succ]
  exact diff_empty s.popped

/-- A pop of a queued task: the slot of the back ticket is full, and is free for the next lap
afterwards. -/
theorem Holds.pop_full (leave : τ → τ) (h : Holds q s) {task : τ} {rest : List τ}
    (hi : s.items = task :: rest) (fuel : Nat) :
    ∃ q', popBackLoop leave (fuel + 1) q q.mBack = some (some task, q') ∧
      Holds q' (s.next kCapacity .pop) := by
  obtain ⟨hp, hle⟩ := h.ok
  have hlen : s.items.length = rest.length + 1 := by rw [hi]; rfl
  have he : q.mArray (slot q.mBack) = ⟨q.mBack + 1, task⟩ := by
    have := h.full 0 (by omega)
    simp only [hi, Nat.add_zero, List.getElem_cons_zero] at this
    rw [h.back, this, ofNat_succ]
  refine ⟨{ q with
    mBack := q.mBack + 1
    mArray := Function.update q.mArray (slot q.mBack)
      ⟨q.mBack + BitVec.ofNat 32 kCapacity, leave task⟩ }, ?_, ?_⟩
  · simp only [popBackLoop, he, diff_self, ↓reduceIte]
  · have hok := h.ok.next .pop
    simp only [Fifo.next, hi] at hok ⊢
    refine ⟨hok, h.front, by rw [h.back]; exact ofNat_succ _, fun i hi' => ?_, fun p h1 h2 => ?_⟩
    · simp only at hi'
      simp only [h.back]
      rw [Function.update_of_ne (slot_ne (by omega) (by omega) (by unfold kCapacity; omega)),
        show s.popped + 1 + i = s.popped + (i + 1) by omega, h.full (i + 1) (by omega)]
      simp [hi]
    · simp only at h1 h2
      simp only [h.back, ← BitVec.ofNat_add]
      by_cases hnew : p = s.popped + kCapacity
      · -- the slot just emptied
        have hs : slot (BitVec.ofNat 32 p) = slot (BitVec.ofNat 32 s.popped) := by
          rw [slot_eq_iff, hnew, Nat.add_mod_right]
        rw [hs, Function.update_self, hnew]
      · rw [Function.update_of_ne (slot_ne (by omega) (by omega) (by omega))]
        exact h.free p h1 (by omega)

/-! ## One call, and a sequence of calls -/

/-- A call that does not stall returns in its first round, with the answer of the FIFO. -/
theorem Holds.call (leave : τ → τ) (h : Holds q s) {c : QueueCall τ} (hc : ¬ Stalls s c)
    (fuel : Nat) :
    ∃ q', callWith leave (fuel + 1) q c = some (s.ret kCapacity c, q') ∧
      Holds q' (s.next kCapacity c) := by
  cases c with
  | push task =>
    by_cases hf : s.items.length = kCapacity
    · obtain ⟨hne, hlt⟩ := h.diff_push_full hf
      have hneg := hlt.mpr fun hw => hc ⟨hf, hw⟩
      refine ⟨q, ?_, by simpa only [Fifo.next, hf, ↓reduceIte] using h⟩
      simp only [callWith, pushFrontLoop, hne, hneg, Fifo.ret, hf, ↓reduceIte]
    · simpa only [callWith, Fifo.ret, hf, ↓reduceIte] using h.push_free hf task fuel
  | pop =>
    cases hi : s.items with
    | nil =>
      obtain ⟨hne, hlt⟩ := h.diff_pop_empty hi
      have hneg := hlt.mpr fun hw => hc ⟨hi, hw⟩
      refine ⟨q, ?_, by simpa only [Fifo.next, hi] using h⟩
      simp only [callWith, popBackLoop, hne, hneg, Fifo.ret, hi, ↓reduceIte, List.head?_nil]
    | cons task rest =>
      simpa only [callWith, Fifo.ret, hi, List.head?_cons] using h.pop_full leave hi fuel

/-- A call that stalls does not return: every round sees the same words. -/
theorem Holds.call_stalls (leave : τ → τ) (h : Holds q s) {c : QueueCall τ} (hc : Stalls s c)
    (fuel : Nat) : callWith leave fuel q c = none := by
  cases c with
  | push task =>
    obtain ⟨hne, hlt⟩ := h.diff_push_full hc.1
    have hnn : ¬ diff (q.mArray (slot q.mFront)).state q.mFront < 0 := fun hl => hlt.mp hl hc.2
    simp only [callWith]
    induction fuel with
    | zero => rfl
    | succ fuel ih => simpa only [pushFrontLoop, hne, hnn, ↓reduceIte] using ih
  | pop =>
    obtain ⟨hne, hlt⟩ := h.diff_pop_empty hc.1
    have hnn : ¬ diff (q.mArray (slot q.mBack)).state (q.mBack + 1) < 0 := fun hl => hlt.mp hl hc.2
    simp only [callWith]
    induction fuel with
    | zero => rfl
    | succ fuel ih => simpa only [popBackLoop, hne, hnn, ↓reduceIte] using ih

/-- The calls `cs` from a ring that holds `s` are answered as by the FIFO `s` iff none stalls. -/
theorem Holds.answers_iff (leave : τ → τ) (h : Holds q s) (cs : List (QueueCall τ)) (fuel : Nat) :
    answers (callWith leave) (fuel + 1) q cs = some (s.rets kCapacity cs) ↔
      Fifo.Avoids kCapacity Stalls s cs := by
  induction cs generalizing q s with
  | nil => simp [answers, Fifo.rets, Fifo.Avoids]
  | cons c cs ih =>
    by_cases hc : Stalls s c
    · simp [answers, Fifo.Avoids, hc, h.call_stalls leave hc]
    · obtain ⟨q', hq, hh⟩ := h.call leave hc fuel
      simp only [Fifo.Avoids, hc, not_false_eq_true, true_and, ← ih hh]
      simp [answers, hq, Fifo.rets, Option.bind_eq_some_iff]

theorem behavesAsFifo_callWith [Inhabited τ] (leave : τ → τ) (cs : List (QueueCall τ)) :
    BehavesAsFifo (callWith leave) cs ↔ Fifo.Avoids kCapacity Stalls Fifo.empty cs := by
  constructor
  · rintro ⟨fuel, hf⟩
    cases fuel with
    | zero =>
      -- without a round no call returns, so the sequence is empty
      cases cs with
      | nil => trivial
      | cons c cs => cases c <;> simp [answers, callWith, pushFrontLoop, popBackLoop] at hf
    | succ fuel => exact (fresh_holds.answers_iff leave cs fuel).mp hf
  · intro ha
    exact ⟨1, (fresh_holds.answers_iff leave cs 0).mpr ha⟩

/-- **Both queues behave as a FIFO of 1024 tasks on exactly the sequences in which no call
stalls.** -/
theorem behavesAsFifo_iff [Inhabited τ] (cs : List (QueueCall τ)) :
    (BehavesAsFifo call cs ↔ Fifo.Avoids kCapacity Stalls Fifo.empty cs) ∧
    (BehavesAsFifo coroutineCall cs ↔ Fifo.Avoids kCapacity Stalls Fifo.empty cs) :=
  ⟨behavesAsFifo_callWith _ cs, behavesAsFifo_callWith _ cs⟩

/-- `2^32 - 1` rounds of a push and a pop, then a pop of the empty queue: the last call does not
return. -/
theorem not_behavesAsFifo_wrap :
    ¬ BehavesAsFifo (call (τ := Nat))
        ((List.replicate (2 ^ 32 - 1) [.push 0, .pop]).flatten ++ [.pop]) ∧
    ¬ BehavesAsFifo (coroutineCall (τ := Nat))
        ((List.replicate (2 ^ 32 - 1) [.push 0, .pop]).flatten ++ [.pop]) := by
  have key : ∀ leave : Nat → Nat, ¬ BehavesAsFifo (callWith leave)
      ((List.replicate (2 ^ 32 - 1) [.push 0, .pop]).flatten ++ [.pop]) := by
    intro leave h
    have ha := (Fifo.avoids_append.mp ((behavesAsFifo_callWith leave _).mp h)).2
    rw [Fifo.run_rounds (by decide)] at ha
    exact ha.1 ⟨rfl, Nat.mod_eq_of_lt (Nat.sub_lt (by decide) (by decide))⟩
  exact ⟨key _, key _⟩

end TaskQueue

end AsyncLib
