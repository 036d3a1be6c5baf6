import Mathlib.Data.List.Basic
import AsyncLib.Lib.Count
import AsyncLib.Lib.System

/-!
# `latch`

`async/support/latch.h`. The counter and a bit that says that some thread waits are one atomic word,
`state_`; `notified_`, the predicate of the condition variable, is guarded by the mutex.

* `Pc`: where a thread is. A call begins with its first atomic step; a lock section is one step, and
  a thread in `cv_.wait` leaves it when it is notified or spuriously. `St`, `step`, `sys`: all runs.
* `Inv`: what holds in a run of `count_down` calls that add up to the initial count. `NoLoss`,
  `latch_no_loss`: no assertion fails and no wake-up is lost.
* `Returns`, `latch_returns`: a call of `wait` returns after the counter was zero, if no call begins
  to wait while a notification of an earlier zero is there or on its way.

A failed assertion is recorded, and the run goes on.
-/

namespace AsyncLib

namespace Latch

open Sys

/-! ## The code -/

/-- Where a thread is. -/
inductive Pc where
  | idle
  /-- `count_down` reached zero and saw the bit; it is before its lock section. -/
  | notify (arrive : Bool)
  /-- `arrive_and_wait` between its two calls. -/
  | arrived
  /-- `wait`, before a lock section that looks at `notified_`. -/
  | locking (began : Nat)
  /-- Blocked in `cv_.wait`. -/
  | blocked (began : Nat)
  /-- `wait` returned. -/
  | returned (began : Nat)
  /-- `try_wait` returned. -/
  | tried (result : Bool)
  deriving DecidableEq, Repr

/-- The two words of the latch, the threads, and when the counter was zero. -/
structure St where
  /-- `state_`: the counter above the bit. -/
  state : Nat
  notified : Bool
  threads : List Pc
  /-- An assertion failed. -/
  failed : Bool
  /-- What the `count_down` calls add up to. -/
  counted : Nat
  /-- The instant, and those in which the counter was zero. -/
  clock : Nat
  zeros : List Nat

/-- The counter in the word. -/
def St.counter (s : St) : Nat := s.state / 2

/-- A thread begins a call, or makes its next step. -/
inductive Label where
  | countDown (t n : Nat)
  | arriveAndWait (t n : Nat)
  | addCount (t n : Nat)
  | tryWait (t : Nat)
  /-- A call of `wait` begins; also the one of `arrive_and_wait`. -/
  | wait (t : Nat)
  /-- A lock section. -/
  | run (t : Nat)
  | spurious (t : Nat)
  /-- The thread takes the result of its call. -/
  | leave (t : Nat)
  deriving DecidableEq, Repr

/-- Where a thread is after `count_down`. -/
def after (arrive : Bool) : Pc := if arrive then .arrived else .idle

/-- `cv_.notify_all`. -/
def Pc.wake : Pc → Pc
  | .blocked began => .locking began
  | pc => pc

/-- `fetch_sub` on 64 bits. -/
def fetchSub (x n : Nat) : Nat := (x + 2 ^ 64 - n % 2 ^ 64) % 2 ^ 64

/-- `fetch_add` on 64 bits. -/
def fetchAdd (x n : Nat) : Nat := (x + n) % 2 ^ 64

/-- `fetch_or`. -/
def fetchOr (x n : Nat) : Nat := x ||| n

/-- `count_down`, up to its lock section. -/
def St.countDown (s : St) (t n : Nat) (arrive : Bool) : St :=
  { s with
    state := fetchSub s.state (n * 2)
    failed := s.failed || decide (s.state / 2 < n)
    counted := s.counted + n
    threads := s.threads.set t
      (if s.state / 2 = n ∧ s.state % 2 = 1 then .notify arrive else after arrive) }

/-- The lock section of `count_down`. -/
def St.notify (s : St) (t : Nat) (arrive : Bool) : St :=
  { s with
    failed := s.failed || s.notified
    notified := true
    threads := (s.threads.map Pc.wake).set t (after arrive) }

/-- `wait`, up to its lock section. -/
def St.wait (s : St) (t : Nat) : St :=
  { s with
    state := fetchOr s.state 1
    threads := s.threads.set t
      (if s.state / 2 = 0 then .returned (s.clock + 1) else .locking (s.clock + 1)) }

/-- The thread `t` goes on at `pc`. -/
def St.set (s : St) (t : Nat) (pc : Pc) : St := { s with threads := s.threads.set t pc }

/-- A step, but for the clock. -/
def act (s : St) : Label → Option St
  | .countDown t n => if s.threads[t]? = some .idle then some (s.countDown t n false) else none
  | .arriveAndWait t n => if s.threads[t]? = some .idle then some (s.countDown t n true) else none
  | .addCount t n =>
    if s.threads[t]? = some .idle then some { s with state := fetchAdd s.state (n * 2) } else none
  | .tryWait t =>
    if s.threads[t]? = some .idle then some (s.set t (.tried (s.state / 2 == 0))) else none
  | .wait t =>
    if s.threads[t]? = some .idle ∨ s.threads[t]? = some .arrived then some (s.wait t) else none
  | .run t =>
    match s.threads[t]? with
    | some (.notify arrive) => some (s.notify t arrive)
    | some (.locking began) =>
      if s.notified then some (s.set t (.returned began)) else some (s.set t (.blocked began))
    | _ => none
  | .spurious t =>
    match s.threads[t]? with
    | some (.blocked began) => some (s.set t (.locking began))
    | _ => none
  | .leave t =>
    match s.threads[t]? with
    | some (.returned _) => some (s.set t .idle)
    | some (.tried _) => some (s.set t .idle)
    | _ => none

/-- The clock goes on, and records whether the counter is zero. -/
def St.tick (s : St) : St :=
  { s with
    clock := s.clock + 1
    zeros := if s.counter = 0 then (s.clock + 1) :: s.zeros else s.zeros }

/-- One step; `none` if it is not enabled. -/
def step (s : St) (l : Label) : Option St := (act s l).map St.tick

/-- A latch with count `c`, and `n` threads. -/
def init (c n : Nat) : St where
  state := c * 2 % 2 ^ 64
  notified := false
  threads := List.replicate n .idle
  failed := false
  counted := 0
  clock := 0
  zeros := if c * 2 % 2 ^ 64 / 2 = 0 then [0] else []

/-- All runs of `n` threads from the counter `c`. -/
def sys (c n : Nat) : Sys St Label := Sys.ofFun (init c n) step

/-! ## Places of a thread -/

/-- In `count_down`. -/
def Pc.notifying : Pc → Bool
  | .notify _ => true
  | _ => false

/-- In `cv_.wait`, not notified. -/
def Pc.asleep : Pc → Bool
  | .blocked _ => true
  | _ => false

/-- In `wait`, since the given instant. -/
def Pc.began : Pc → Option Nat
  | .locking began => some began
  | .blocked began => some began
  | _ => none

@[simp] theorem notifying_after (arrive : Bool) : (after arrive).notifying = false := by
  cases arrive <;> rfl

@[simp] theorem began_after (arrive : Bool) : (after arrive).began = none := by
  cases arrive <;> rfl

@[simp] theorem asleep_after (arrive : Bool) : (after arrive).asleep = false := by
  cases arrive <;> rfl

@[simp] theorem notifying_wake (pc : Pc) : pc.wake.notifying = pc.notifying := by
  cases pc <;> rfl

@[simp] theorem began_wake (pc : Pc) : pc.wake.began = pc.began := by
  cases pc <;> rfl

@[simp] theorem asleep_wake (pc : Pc) : pc.wake.asleep = false := by
  cases pc <;> rfl

/-- The number of threads before the lock section of `count_down`. -/
def St.notifiers (s : St) : Nat := s.threads.countP Pc.notifying

theorem forall_set {P : Pc → Prop} {l : List Pc} {t : Nat} {pc : Pc} (h : ∀ x ∈ l, P x)
    (hpc : P pc) :
    ∀ x ∈ l.set t pc, P x := by
  intro x hx
  rcases List.mem_or_eq_of_mem_set hx with hx | rfl
  · exact h x hx
  · exact hpc

theorem forall_wake {P : Pc → Prop} {l : List Pc} (h : ∀ x ∈ l, P x.wake) : ∀ x ∈ l.map Pc.wake, P
    x := by
  intro x hx
  obtain ⟨y, hy, rfl⟩ := List.mem_map.mp hx
  exact h y hy

/-- One thread moves. -/
theorem notifiers_set {l : List Pc} {t : Nat} {pc : Pc} (h : l[t]? = some pc) (pc' : Pc) :
    (l.set t pc').countP Pc.notifying + pc.notifying.toNat =
      l.countP Pc.notifying + pc'.notifying.toNat := countP_set_add h

theorem notifiers_wake (l : List Pc) :
    (l.map Pc.wake).countP Pc.notifying = l.countP Pc.notifying := by
  rw [List.countP_map]
  exact List.countP_congr fun pc _ => by simp

/-! ## The word -/

theorem fetchOr_div (x : Nat) : fetchOr x 1 / 2 = x / 2 := by
  rw [fetchOr, Nat.or_div_two]
  simp

theorem fetchOr_mod (x : Nat) : fetchOr x 1 % 2 = 1 := Nat.or_mod_two_eq_one.mpr (.inr rfl)

theorem fetchSub_eq {x n : Nat} (hx : x < 2 ^ 64) (hn : n ≤ x / 2) :
    fetchSub x (n * 2) = x - n * 2 := by
  simp only [fetchSub]
  omega

/-! ## The counts add up -/

/-- No `add_count`, and the `count_down` calls add up to at most `c`. -/
def Within (c : Nat) (s : St) : Label → Prop
  | .countDown _ n => 1 ≤ n ∧ s.counted + n ≤ c
  | .arriveAndWait _ n => 1 ≤ n ∧ s.counted + n ≤ c
  | .addCount _ _ => False
  | _ => True

instance (c : Nat) (s : St) (l : Label) : Decidable (Within c s l) :=
  match l with
  | .countDown _ n => inferInstanceAs (Decidable (1 ≤ n ∧ s.counted + n ≤ c))
  | .arriveAndWait _ n => inferInstanceAs (Decidable (1 ≤ n ∧ s.counted + n ≤ c))
  | .addCount _ _ => .isFalse id
  | .tryWait _ => .isTrue trivial
  | .wait _ => .isTrue trivial
  | .run _ => .isTrue trivial
  | .spurious _ => .isTrue trivial
  | .leave _ => .isTrue trivial

/-- What a waiting thread waits for: the counter, a notifier or `notified_`. -/
def St.owing (s : St) : Nat := s.notifiers + s.notified.toNat + (decide (s.counter ≠ 0)).toNat

/-- What holds in the runs without `add_count`. -/
structure Inv (c : Nat) (s : St) : Prop where
  word : s.state < 2 ^ 64
  /-- The counter is what is not counted down. -/
  counted : s.counter + s.counted = c
  asserts : s.failed = false
  /-- Zero is notified at most once. -/
  once : s.owing ≤ 1
  bit : ∀ pc ∈ s.threads, pc.began ≠ none → s.state % 2 = 1
  /-- Whoever waits is going to be notified. -/
  owed : ∀ pc ∈ s.threads, pc.began ≠ none → s.owing = 1
  awake : s.notified = true → ∀ pc ∈ s.threads, pc.asleep = false

variable {c n t : Nat} {s s' : St}

theorem inv_init (hc : c < 2 ^ 63) : Inv c (init c n) where
  word := Nat.mod_lt _ (by decide)
  counted := by
    show c * 2 % 2 ^ 64 / 2 + 0 = c
    omega
  asserts := rfl
  once := by
    have h0 : (init c n).notifiers = 0 := by
      simp [St.notifiers, init, List.countP_replicate, Pc.notifying]
    have hnot : (init c n).notified = false := rfl
    rw [St.owing, h0, hnot, Bool.toNat_false, Nat.zero_add]
    exact Bool.toNat_le _
  bit := by
    intro pc hpc hb
    rw [List.eq_of_mem_replicate hpc] at hb
    exact absurd rfl hb
  owed := by
    intro pc hpc hb
    rw [List.eq_of_mem_replicate hpc] at hb
    exact absurd rfl hb
  awake := nofun

theorem countDown_fields (s : St) (t n : Nat) (arrive : Bool) :
    (s.countDown t n arrive).state = fetchSub s.state (n * 2) ∧
      (s.countDown t n arrive).threads = s.threads.set t
        (if s.state / 2 = n ∧ s.state % 2 = 1 then .notify arrive else after arrive) ∧
      (s.countDown t n arrive).failed = (s.failed || decide (s.state / 2 < n)) ∧
      (s.countDown t n arrive).counted = s.counted + n ∧
      (s.countDown t n arrive).notified = s.notified ∧
      (s.countDown t n arrive).clock = s.clock ∧ (s.countDown t n arrive).zeros = s.zeros := by
  unfold St.countDown
  exact ⟨rfl, rfl, rfl, rfl, rfl, rfl, rfl⟩

/-- `count_down` reaches zero once, and hands it to a notifier if someone may wait. -/
theorem Inv.countDown (h : Inv c s) (ht : s.threads[t]? = some .idle) {n : Nat} (hn : 1 ≤ n)
    (hle : s.counted + n ≤ c) (arrive : Bool) : Inv c (s.countDown t n arrive) := by
  have hcounted := h.counted
  have honce := h.once
  have hdec : n ≤ s.state / 2 := by
    rw [St.counter] at hcounted
    omega
  have hpos : s.counter ≠ 0 := by
    rw [St.counter]
    omega
  have hnone : s.notifiers = 0 ∧ s.notified = false := by
    rw [St.owing, decide_eq_true hpos, Bool.toNat_true] at honce
    refine ⟨by omega, ?_⟩
    cases hnot : s.notified with
    | false => rfl
    | true =>
      rw [hnot, Bool.toNat_true] at honce
      omega
  -- the thread becomes a notifier if the counter is zero now and the bit is set
  obtain ⟨pc', hpc'⟩ : ∃ pc', pc' =
      if s.state / 2 = n ∧ s.state % 2 = 1 then Pc.notify arrive else after arrive := ⟨_, rfl⟩
  have hnew : pc'.began = none ∧ pc'.asleep = false := by
    rw [hpc']
    split
    · exact ⟨rfl, rfl⟩
    · exact ⟨began_after arrive, asleep_after arrive⟩
  obtain ⟨hstate, hthreads, hfailed, hsum, hnot⟩ :
      (s.countDown t n arrive).state = s.state - n * 2 ∧
        (s.countDown t n arrive).threads = s.threads.set t pc' ∧
        (s.countDown t n arrive).failed = (s.failed || decide (s.state / 2 < n)) ∧
        (s.countDown t n arrive).counted = s.counted + n ∧
        (s.countDown t n arrive).notified = s.notified := by
    obtain ⟨hstate, hthreads, hfailed, hsum, hnot, -⟩ := countDown_fields s t n arrive
    rw [fetchSub_eq h.word hdec] at hstate
    rw [← hpc'] at hthreads
    exact ⟨hstate, hthreads, hfailed, hsum, hnot⟩
  generalize s.countDown t n arrive = s' at hstate hthreads hfailed hsum hnot ⊢
  have hcounter : s'.counter = s.counter - n := by
    rw [St.counter, St.counter, hstate]
    omega
  have howing : s'.owing ≤ 1 ∧ (s.state % 2 = 1 → s'.owing = 1) := by
    have hset := notifiers_set ht pc'
    have h0 : s.threads.countP Pc.notifying = 0 := hnone.1
    have hidle : Pc.notifying .idle = false := rfl
    rw [h0, hidle, Bool.toNat_false, Nat.zero_add, Nat.add_zero, ← hthreads] at hset
    rw [St.owing, St.notifiers, hset, hnot, hnone.2, hcounter, hpc', Bool.toNat_false, Nat.add_zero]
    by_cases hzero : s.counter - n = 0
    · have hdiv : s.state / 2 = n := by
        rw [St.counter] at hzero
        omega
      by_cases hbit : s.state % 2 = 1
      · rw [if_pos ⟨hdiv, hbit⟩, hzero]
        exact ⟨Nat.le_refl _, fun _ => rfl⟩
      · rw [if_neg fun hc => hbit hc.2, hzero, notifying_after]
        exact ⟨Nat.zero_le _, fun hb => absurd hb hbit⟩
    · have hdiv : s.state / 2 ≠ n := by
        rw [St.counter] at hzero
        omega
      rw [if_neg fun hc => hdiv hc.1, notifying_after, decide_eq_true hzero]
      exact ⟨Nat.le_refl _, fun _ => rfl⟩
  refine ⟨?_, ?_, ?_, howing.1, ?_, ?_, ?_⟩
  · rw [hstate]
    exact Nat.lt_of_le_of_lt (Nat.sub_le _ _) h.word
  · rw [hcounter, hsum]
    rw [St.counter] at hcounted ⊢
    omega
  · rw [hfailed, h.asserts, decide_eq_false (Nat.not_lt.mpr hdec)]
    rfl
  · rw [hthreads]
    refine forall_set (fun pc hpc hb => ?_) fun hb => absurd hnew.1 hb
    have := h.bit pc hpc hb
    rw [hstate]
    omega
  · rw [hthreads]
    exact forall_set (fun pc hpc hb => howing.2 (h.bit pc hpc hb)) fun hb => absurd hnew.1 hb
  · rw [hnot, hnone.2]
    exact nofun

/-- The lock section of `count_down` wakes whoever waits. -/
theorem Inv.notify (h : Inv c s) {arrive : Bool} (ht : s.threads[t]? = some (.notify arrive)) :
    Inv c (s.notify t arrive) := by
  have honce := h.once
  have hpos : 0 < s.notifiers :=
    List.countP_pos_iff.mpr ⟨_, List.mem_of_getElem? ht, rfl⟩
  have hnot : s.notified = false := by
    cases hnot : s.notified with
    | false => rfl
    | true =>
      rw [St.owing, hnot, Bool.toNat_true] at honce
      omega
  have hwake : (s.threads.map Pc.wake)[t]? = some (.notify arrive) := by
    rw [List.getElem?_map, ht]
    rfl
  have hset := notifiers_set hwake (after arrive)
  have howing : (s.notify t arrive).owing = s.owing := by
    have htrue : Pc.notifying (.notify arrive) = true := rfl
    have hthreads : (s.notify t arrive).notifiers =
        ((s.threads.map Pc.wake).set t (after arrive)).countP Pc.notifying := rfl
    have hnew : (s.notify t arrive).notified = true := rfl
    have hcounter : (s.notify t arrive).counter = s.counter := rfl
    rw [notifiers_wake, htrue, notifying_after, Bool.toNat_true, Bool.toNat_false] at hset
    rw [St.owing, St.owing, hthreads, hnew, hcounter, hnot, Bool.toNat_true, Bool.toNat_false]
    rw [St.notifiers]
    omega
  refine ⟨h.word, h.counted, ?_, howing ▸ h.once, ?_, ?_, fun _ => ?_⟩
  · show (s.failed || s.notified) = false
    rw [h.asserts, hnot]
    rfl
  · refine forall_set (forall_wake fun pc hpc hb => ?_) fun hb => absurd (began_after arrive) hb
    rw [began_wake] at hb
    exact h.bit pc hpc hb
  · rw [howing]
    refine forall_set (forall_wake fun pc hpc hb => ?_) fun hb => absurd (began_after arrive) hb
    rw [began_wake] at hb
    exact h.owed pc hpc hb
  · exact forall_set (forall_wake fun pc _ => asleep_wake pc) (asleep_after arrive)

/-- A thread moves that neither notifies nor begins to wait. -/
theorem Inv.set (h : Inv c s) {pc pc' : Pc} (ht : s.threads[t]? = some pc)
    (hn : pc.notifying = false) (hn' : pc'.notifying = false)
    (hb : pc'.began ≠ none → pc.began ≠ none)
    (ha : s.notified = true → pc'.asleep = false) : Inv c (s.set t pc') := by
  have howing : (s.set t pc').owing = s.owing := by
    have hset := notifiers_set ht pc'
    rw [hn, hn', Nat.add_right_cancel_iff] at hset
    have hthreads : (s.set t pc').notifiers = s.notifiers := hset
    have hnot : (s.set t pc').notified = s.notified := rfl
    have hcounter : (s.set t pc').counter = s.counter := rfl
    rw [St.owing, St.owing, hthreads, hnot, hcounter]
  have hmem := List.mem_of_getElem? ht
  refine ⟨h.word, h.counted, h.asserts, howing ▸ h.once, ?_, ?_, fun hnot => ?_⟩
  · exact forall_set h.bit fun hx => h.bit pc hmem (hb hx)
  · rw [howing]
    exact forall_set h.owed fun hx => h.owed pc hmem (hb hx)
  · exact forall_set (h.awake hnot) (ha hnot)

/-- A call of `wait` begins: it sets the bit, and waits if the counter is not zero. -/
theorem Inv.wait (h : Inv c s) {pc : Pc} (ht : s.threads[t]? = some pc)
    (hn : pc.notifying = false) : Inv c (s.wait t) := by
  have hcounter : (s.wait t).counter = s.counter := fetchOr_div s.state
  have hset := notifiers_set ht
    (if s.state / 2 = 0 then .returned (s.clock + 1) else .locking (s.clock + 1))
  have hnew : Pc.notifying
      (if s.state / 2 = 0 then .returned (s.clock + 1) else .locking (s.clock + 1)) = false := by
    split <;> rfl
  rw [hn, hnew, Nat.add_right_cancel_iff] at hset
  have howing : (s.wait t).owing = s.owing := by
    have hthreads : (s.wait t).notifiers = s.notifiers := hset
    have hnot : (s.wait t).notified = s.notified := rfl
    rw [St.owing, St.owing, hthreads, hnot, hcounter]
  refine ⟨?_, ?_, h.asserts, howing ▸ h.once, fun _ _ _ => fetchOr_mod s.state, ?_, fun hnot => ?_⟩
  · exact Nat.or_lt_two_pow h.word (by decide)
  · rw [hcounter]
    exact h.counted
  · rw [howing]
    refine forall_set h.owed fun hb => ?_
    have hpos : s.counter ≠ 0 := by
      intro h0
      rw [St.counter] at h0
      rw [if_pos h0] at hb
      exact hb rfl
    have honce := h.once
    simp only [St.owing, hpos, ne_eq, not_false_eq_true, decide_true, Bool.toNat_true] at honce ⊢
    omega
  · refine forall_set (h.awake hnot) ?_
    split <;> rfl

/-- A step of a run without `add_count`, whose counts add up to at most `c`. -/
theorem Inv.act (h : Inv c s) {l : Label} (hok : Within c s l) (ha : act s l = some s') :
    Inv c s' := by
  cases l with
  | countDown t n =>
    obtain ⟨ht, ha⟩ := Option.ite_none_right_eq_some.mp ha
    cases ha
    exact h.countDown ht hok.1 hok.2 false
  | arriveAndWait t n =>
    obtain ⟨ht, ha⟩ := Option.ite_none_right_eq_some.mp ha
    cases ha
    exact h.countDown ht hok.1 hok.2 true
  | addCount t n => exact hok.elim
  | tryWait t =>
    obtain ⟨ht, ha⟩ := Option.ite_none_right_eq_some.mp ha
    cases ha
    exact h.set ht rfl rfl (fun hb => absurd rfl hb) fun _ => rfl
  | wait t =>
    obtain ⟨ht, ha⟩ := Option.ite_none_right_eq_some.mp ha
    cases ha
    rcases ht with ht | ht
    · exact h.wait ht rfl
    · exact h.wait ht rfl
  | run t =>
    simp only [Latch.act] at ha
    split at ha
    · rename_i arrive ht
      cases ha
      exact h.notify ht
    · rename_i began ht
      split at ha
      · cases ha
        exact h.set ht rfl rfl (fun hb => absurd rfl hb) fun _ => rfl
      · rename_i hnot
        cases ha
        exact h.set ht rfl rfl (fun _ => nofun) fun hn => absurd hn hnot
    · cases ha
  | spurious t =>
    simp only [Latch.act] at ha
    split at ha
    · rename_i began ht
      cases ha
      exact h.set ht rfl rfl (fun _ => nofun) fun _ => rfl
    · cases ha
  | leave t =>
    simp only [Latch.act] at ha
    split at ha
    · rename_i began ht
      cases ha
      exact h.set ht rfl rfl (fun hb => absurd rfl hb) fun _ => rfl
    · rename_i result ht
      cases ha
      exact h.set ht rfl rfl (fun hb => absurd rfl hb) fun _ => rfl
    · cases ha

theorem inv_reach (hc : c < 2 ^ 63) (hs : (sys c n).Reach (Within c) s) : Inv c s := by
  refine hs.invariant ?_ ?_
  · intro s h0
    cases h0
    exact inv_init hc
  · intro s l s' h hok hn
    obtain ⟨s₁, ha, rfl⟩ := Option.map_eq_some_iff.mp hn
    have h₁ := h.act hok ha
    exact ⟨h₁.word, h₁.counted, h₁.asserts, h₁.once, h₁.bit, h₁.owed, h₁.awake⟩

/-- No assertion fails. When the counter is zero and no `count_down` runs, `notified_` is set or
nobody waits, and nobody sleeps. -/
structure NoLoss (s : St) : Prop where
  asserts : s.failed = false
  notified : s.counter = 0 → (∀ pc ∈ s.threads, pc.notifying = false) →
    s.notified = true ∨ ∀ pc ∈ s.threads, pc.began = none
  awake : s.counter = 0 → (∀ pc ∈ s.threads, pc.notifying = false) →
    ∀ pc ∈ s.threads, pc.asleep = false

theorem Inv.noLoss (h : Inv c s) : NoLoss s := by
  have hnotified : s.counter = 0 → (∀ pc ∈ s.threads, pc.notifying = false) →
      s.notified = true ∨ ∀ pc ∈ s.threads, pc.began = none := by
    intro h0 hall
    have hnone : s.notifiers = 0 :=
      List.countP_eq_zero.mpr fun pc hpc => by simp [hall pc hpc]
    by_cases hw : ∀ pc ∈ s.threads, pc.began = none
    · exact .inr hw
    · push Not at hw
      obtain ⟨pc, hpc, hb⟩ := hw
      have howed := h.owed pc hpc hb
      rw [St.owing, hnone, h0, decide_eq_false (by simp), Bool.toNat_false] at howed
      cases hnot : s.notified with
      | true => exact .inl rfl
      | false =>
        rw [hnot] at howed
        cases howed
  refine ⟨h.asserts, hnotified, fun h0 hall pc hpc => ?_⟩
  rcases hnotified h0 hall with hnot | hnone
  · exact h.awake hnot pc hpc
  · have hb := hnone pc hpc
    cases pc with
    | blocked began => cases hb
    | _ => rfl

/-- A latch that only counts down: its assertions hold and no wake-up is lost. -/
theorem latch_no_loss (hc : c < 2 ^ 63) (hs : (sys c n).Reach (Within c) s) : NoLoss s :=
  (inv_reach hc hs).noLoss

/-- A thread sleeps while two others count down; the second of them wakes it. -/
theorem latch_no_loss_two : ∃ s : St, s.threads = [.locking 1, .idle, .arrived] ∧ s.counter = 0 ∧
    s.notified = true ∧ NoLoss s := by
  have hr : ∀ s, runLabels (guarded step (Within 2)) (init 2 3)
      [.wait 0, .run 0, .countDown 1 1, .arriveAndWait 2 1, .run 2] = some s → NoLoss s := fun s hs
        =>
    latch_no_loss (c := 2) (n := 3) (by decide) (reach_guarded (.init rfl) _ hs)
  exact ⟨_, rfl, rfl, rfl, hr _ rfl⟩

/-! ## Returns of `wait` -/

/-- `count_down(n)` is called with at most the counter. -/
def Legal (s : St) : Label → Prop
  | .countDown _ n => 1 ≤ n ∧ n ≤ s.counter
  | .arriveAndWait _ n => 1 ≤ n ∧ n ≤ s.counter
  | _ => True

/-- No thread begins to wait while a notification is there or on its way. -/
def Fresh (s : St) : Label → Prop
  | .wait _ => s.counter = 0 ∨ s.notified = false ∧ ∀ pc ∈ s.threads, pc.notifying = false
  | _ => True

instance (s : St) (l : Label) : Decidable (Legal s l) :=
  match l with
  | .countDown _ n => inferInstanceAs (Decidable (1 ≤ n ∧ n ≤ s.counter))
  | .arriveAndWait _ n => inferInstanceAs (Decidable (1 ≤ n ∧ n ≤ s.counter))
  | .addCount _ _ => .isTrue trivial
  | .tryWait _ => .isTrue trivial
  | .wait _ => .isTrue trivial
  | .run _ => .isTrue trivial
  | .spurious _ => .isTrue trivial
  | .leave _ => .isTrue trivial

/-- The counter was zero at the given instant or later. -/
def St.zeroSince (s : St) (began : Nat) : Prop := ∃ z ∈ s.zeros, began ≤ z

/-- A call of `wait` that returned saw the counter zero after it began. -/
def Returns (s : St) : Prop := ∀ began, .returned began ∈ s.threads → s.zeroSince began

/-- No notification is there or on its way. -/
def St.unnotified (s : St) : Prop := s.notified = false ∧ ∀ pc ∈ s.threads, pc.notifying = false

/-- What holds in the runs where no call of `wait` begins too late. -/
structure Waits (s : St) : Prop where
  word : s.state < 2 ^ 64
  returns : Returns s
  clock : ∀ pc ∈ s.threads, ∀ began, pc.began = some began → began ≤ s.clock
  /-- Whoever waits saw the counter zero, or is not notified yet. -/
  waiting : ∀ pc ∈ s.threads, ∀ began, pc.began = some began → s.zeroSince began ∨ s.unnotified

/-- The calls of a thread go on: it did not begin to wait, and does not return without a zero. -/
theorem Waits.set (h : Waits s) {pc pc' : Pc} (ht : s.threads[t]? = some pc)
    (hn : pc'.notifying = false) (hb : ∀ began, pc'.began = some began → pc.began = some began)
    (hr : ∀ began, pc' = .returned began → s.zeroSince began) : Waits (s.set t pc') := by
  have hmem := List.mem_of_getElem? ht
  refine ⟨h.word, fun began hx => ?_, ?_, ?_⟩
  · rcases List.mem_or_eq_of_mem_set hx with hx | hx
    · exact h.returns began hx
    · exact hr began hx.symm
  · exact forall_set h.clock fun began hx => h.clock pc hmem began (hb began hx)
  · have hset : ∀ x ∈ s.threads, ∀ began, x.began = some began →
        (s.set t pc').zeroSince began ∨ (s.set t pc').unnotified := fun x hx began hxb =>
      (h.waiting x hx began hxb).imp_right fun hu => ⟨hu.1, forall_set hu.2 hn⟩
    exact forall_set hset fun began hx => hset pc hmem began (hb began hx)

/-- The clock ticks. -/
theorem Waits.tick (h : Waits s) : Waits s.tick := by
  have hz : ∀ began, s.zeroSince began → s.tick.zeroSince began := by
    rintro began ⟨z, hz, hle⟩
    refine ⟨z, ?_, hle⟩
    show z ∈ if s.counter = 0 then (s.clock + 1) :: s.zeros else s.zeros
    split
    · exact List.mem_cons_of_mem _ hz
    · exact hz
  exact ⟨h.word, fun began hx => hz began (h.returns began hx),
    fun pc hpc began hb => Nat.le_succ_of_le (h.clock pc hpc began hb),
    fun pc hpc began hb => (h.waiting pc hpc began hb).imp_left (hz began)⟩

/-- `count_down` reaches zero, or does not notify. -/
theorem Waits.countDown (h : Waits s) (hle : n ≤ s.counter) (arrive : Bool) :
    Waits (s.countDown t n arrive).tick := by
  obtain ⟨pc', hpc'⟩ : ∃ pc', pc' =
      if s.state / 2 = n ∧ s.state % 2 = 1 then Pc.notify arrive else after arrive := ⟨_, rfl⟩
  have hnew : pc'.began = none ∧ ∀ began, pc' ≠ .returned began := by
    rw [hpc']
    split
    · exact ⟨rfl, nofun⟩
    · cases arrive
      · exact ⟨rfl, nofun⟩
      · exact ⟨rfl, nofun⟩
  obtain ⟨hstate, hthreads, -, -, hnot, hclock, hzeros⟩ := countDown_fields s t n arrive
  rw [← hpc'] at hthreads
  rw [fetchSub_eq h.word hle] at hstate
  generalize s.countDown t n arrive = s' at hstate hthreads hnot hclock hzeros ⊢
  have hword : s'.state < 2 ^ 64 := by
    rw [hstate]
    exact Nat.lt_of_le_of_lt (Nat.sub_le _ _) h.word
  have hbegan : ∀ pc ∈ s'.threads, ∀ began, pc.began = some began →
      pc ∈ s.threads := by
    intro pc hpc began hb
    rw [hthreads] at hpc
    rcases List.mem_or_eq_of_mem_set hpc with hpc | rfl
    · exact hpc
    · rw [hnew.1] at hb
      cases hb
  have hreturns : Returns s' := by
    intro began hx
    rw [hthreads] at hx
    rcases List.mem_or_eq_of_mem_set hx with hx | hx
    · rw [St.zeroSince, hzeros]
      exact h.returns began hx
    · exact absurd hx.symm (hnew.2 began)
  have hsince : ∀ pc ∈ s'.threads, ∀ began, pc.began = some began → began ≤ s'.clock :=
    fun pc hpc began hb => hclock ▸ h.clock pc (hbegan pc hpc began hb) began hb
  by_cases hzero : s'.counter = 0
  · -- all who wait see this zero
    refine ⟨hword, fun began hx => ?_, fun pc hpc began hb => Nat.le_succ_of_le
      (hsince pc hpc began hb),
      fun pc hpc began hb => .inl ⟨s'.clock + 1, ?_, Nat.le_succ_of_le (hsince pc hpc began hb)⟩⟩
    · obtain ⟨z, hz, hle⟩ := hreturns began hx
      refine ⟨z, ?_, hle⟩
      simp only [St.tick, if_pos hzero]
      exact List.mem_cons_of_mem _ hz
    · simp only [St.tick, if_pos hzero]
      exact List.mem_cons_self
  · have hdiv : s.state / 2 ≠ n := by
      intro he
      rw [St.counter, hstate] at hzero
      omega
    have hquiet : pc'.notifying = false := by
      rw [hpc', if_neg fun hc => hdiv hc.1]
      exact notifying_after arrive
    refine Waits.tick ⟨hword, hreturns, hsince, fun pc hpc began hb => ?_⟩
    rw [St.zeroSince, hzeros, St.unnotified, hnot, hthreads]
    exact (h.waiting pc (hbegan pc hpc began hb) began hb).imp_right
      fun hu => ⟨hu.1, forall_set hu.2 hquiet⟩

/-- A call of `wait` begins when the counter is zero, or nothing is notified. -/
theorem Waits.wait (h : Waits s) (hf : Fresh s (.wait t)) : Waits (s.wait t).tick := by
  have hcounter : (s.wait t).counter = s.counter := fetchOr_div s.state
  obtain ⟨pc', hpc'⟩ : ∃ pc', pc' =
      if s.state / 2 = 0 then Pc.returned (s.clock + 1) else .locking (s.clock + 1) := ⟨_, rfl⟩
  have hthreads : (s.wait t).threads = s.threads.set t pc' := by
    rw [hpc']
    rfl
  have hquiet : pc'.notifying = false := by
    rw [hpc']
    split <;> rfl
  have hword : (s.wait t).state < 2 ^ 64 := Nat.or_lt_two_pow h.word (by decide)
  have hold : ∀ began, s.zeroSince began → (s.wait t).tick.zeroSince began := by
    rintro began ⟨z, hz, hle⟩
    refine ⟨z, ?_, hle⟩
    simp only [St.tick]
    split
    · exact List.mem_cons_of_mem _ hz
    · exact hz
  have hwaiting : ∀ pc ∈ s.threads, ∀ began, pc.began = some began →
      (s.wait t).tick.zeroSince began ∨ (s.wait t).tick.unnotified := by
    intro pc hpc began hb
    refine (h.waiting pc hpc began hb).imp (hold began) fun hu => ⟨hu.1, ?_⟩
    show ∀ pc ∈ (s.wait t).threads, pc.notifying = false
    rw [hthreads]
    exact forall_set hu.2 hquiet
  refine ⟨hword, ?_, ?_, ?_⟩
  · intro began hx
    have hx : Pc.returned began ∈ (s.wait t).threads := hx
    rw [hthreads] at hx
    rcases List.mem_or_eq_of_mem_set hx with hx | hx
    · exact hold began (h.returns began hx)
    · rw [hpc'] at hx
      split at hx
      · rename_i h0
        cases hx
        have hzero : (s.wait t).counter = 0 := hcounter.trans h0
        refine ⟨s.clock + 1, ?_, Nat.le_refl _⟩
        simp only [St.tick, if_pos hzero]
        exact List.mem_cons_self
      · cases hx
  · show ∀ pc ∈ (s.wait t).threads, ∀ began, pc.began = some began → began ≤ s.clock + 1
    rw [hthreads]
    refine forall_set (fun pc hpc began hb => Nat.le_succ_of_le (h.clock pc hpc began hb)) ?_
    intro began hb
    rw [hpc'] at hb
    split at hb
    · cases hb
    · cases hb
      exact Nat.le_refl _
  · show ∀ pc ∈ (s.wait t).threads, _
    rw [hthreads]
    refine forall_set hwaiting fun began hb => ?_
    rcases hf with h0 | hu
    · have h0 : s.state / 2 = 0 := h0
      rw [hpc', if_pos h0] at hb
      cases hb
    · refine .inr ⟨hu.1, ?_⟩
      show ∀ pc ∈ (s.wait t).threads, pc.notifying = false
      rw [hthreads]
      exact forall_set hu.2 hquiet

/-- The lock section of `count_down`: whoever waits saw the counter zero. -/
theorem Waits.notify (h : Waits s) {arrive : Bool} (ht : s.threads[t]? = some (.notify arrive)) :
    Waits (s.notify t arrive) := by
  have hseen : ∀ pc ∈ s.threads, ∀ began, pc.began = some began → s.zeroSince began := by
    intro pc hpc began hb
    rcases h.waiting pc hpc began hb with hz | hu
    · exact hz
    · exact absurd (hu.2 _ (List.mem_of_getElem? ht)) nofun
  have hbegan : ∀ began, (after arrive).began ≠ some began := by simp
  refine ⟨h.word, fun began hx => ?_, ?_, ?_⟩
  · rcases List.mem_or_eq_of_mem_set hx with hx | hx
    · obtain ⟨pc, hpc, hw⟩ := List.mem_map.mp hx
      cases pc with
      | returned b =>
        cases hw
        exact h.returns began hpc
      | _ => cases hw
    · cases arrive <;> cases hx
  · refine forall_set (forall_wake fun pc hpc began hb => ?_) fun began hb => absurd hb
      (hbegan began)
    rw [began_wake] at hb
    exact h.clock pc hpc began hb
  · refine forall_set (forall_wake fun pc hpc began hb => ?_) fun began hb => absurd hb
      (hbegan began)
    rw [began_wake] at hb
    exact .inl (hseen pc hpc began hb)

theorem Waits.step (h : Waits s) {l : Label} (hl : Legal s l) (hf : Fresh s l)
    (hs : step s l = some s') : Waits s' := by
  obtain ⟨s₁, ha, rfl⟩ := Option.map_eq_some_iff.mp hs
  cases l with
  | countDown t n =>
    obtain ⟨ht, ha⟩ := Option.ite_none_right_eq_some.mp ha
    cases ha
    exact h.countDown hl.2 false
  | arriveAndWait t n =>
    obtain ⟨ht, ha⟩ := Option.ite_none_right_eq_some.mp ha
    cases ha
    exact h.countDown hl.2 true
  | addCount t n =>
    obtain ⟨ht, ha⟩ := Option.ite_none_right_eq_some.mp ha
    cases ha
    exact Waits.tick ⟨Nat.mod_lt _ (by decide), h.returns, h.clock, h.waiting⟩
  | tryWait t =>
    obtain ⟨ht, ha⟩ := Option.ite_none_right_eq_some.mp ha
    cases ha
    exact (h.set ht rfl (fun _ hb => by cases hb) fun _ hb => by cases hb).tick
  | wait t =>
    obtain ⟨ht, ha⟩ := Option.ite_none_right_eq_some.mp ha
    cases ha
    exact h.wait hf
  | run t =>
    simp only [act] at ha
    split at ha
    · rename_i arrive ht
      cases ha
      exact (h.notify ht).tick
    · rename_i began ht
      have hmem := List.mem_of_getElem? ht
      split at ha
      · rename_i hnot
        cases ha
        refine (h.set ht rfl (fun b hb => by cases hb) fun b hb => ?_).tick
        cases hb
        rcases h.waiting _ hmem began rfl with hz | hu
        · exact hz
        · rw [hu.1] at hnot
          cases hnot
      · cases ha
        have hset : Waits (s.set t (.blocked began)) :=
          h.set ht rfl (fun _ hb => hb) fun _ hb => by cases hb
        exact hset.tick
    · cases ha
  | spurious t =>
    simp only [act] at ha
    split at ha
    · rename_i began ht
      cases ha
      have hset : Waits (s.set t (.locking began)) :=
        h.set ht rfl (fun _ hb => hb) fun _ hb => by cases hb
      exact hset.tick
    · cases ha
  | leave t =>
    simp only [act] at ha
    split at ha
    · rename_i began ht
      cases ha
      exact (h.set ht rfl (fun _ hb => by cases hb) fun _ hb => by cases hb).tick
    · rename_i result ht
      cases ha
      exact (h.set ht rfl (fun _ hb => by cases hb) fun _ hb => by cases hb).tick
    · cases ha

theorem waits_init (c n : Nat) : Waits (init c n) where
  word := Nat.mod_lt _ (by decide)
  returns began hb := by cases List.eq_of_mem_replicate hb
  clock pc hpc began hb := by
    rw [List.eq_of_mem_replicate hpc] at hb
    cases hb
  waiting pc hpc began hb := by
    rw [List.eq_of_mem_replicate hpc] at hb
    cases hb

theorem act_clock {l : Label} (ha : act s l = some s') : s'.zeros = s.zeros ∧ s'.clock = s.clock := by
  cases l with
  | countDown t n =>
    obtain ⟨-, ha⟩ := Option.ite_none_right_eq_some.mp ha
    obtain ⟨-, -, -, -, -, hclock, hzeros⟩ := countDown_fields s t n false
    cases ha
    exact ⟨hzeros, hclock⟩
  | arriveAndWait t n =>
    obtain ⟨-, ha⟩ := Option.ite_none_right_eq_some.mp ha
    obtain ⟨-, -, -, -, -, hclock, hzeros⟩ := countDown_fields s t n true
    cases ha
    exact ⟨hzeros, hclock⟩
  | run t =>
    simp only [act] at ha
    split at ha
    · cases ha
      exact ⟨rfl, rfl⟩
    · split at ha <;> cases ha <;> exact ⟨rfl, rfl⟩
    · cases ha
  | spurious t =>
    simp only [act] at ha
    split at ha
    · cases ha
      exact ⟨rfl, rfl⟩
    · cases ha
  | leave t =>
    simp only [act] at ha
    split at ha
    · cases ha
      exact ⟨rfl, rfl⟩
    · cases ha
      exact ⟨rfl, rfl⟩
    · cases ha
  | _ =>
    obtain ⟨-, ha⟩ := Option.ite_none_right_eq_some.mp ha
    cases ha
    exact ⟨rfl, rfl⟩

/-- The recorded instants are past. -/
theorem zeros_le (hs : (sys c n).Reach Legal s) : ∀ z ∈ s.zeros, z ≤ s.clock := by
  refine hs.invariant (I := fun s => ∀ z ∈ s.zeros, z ≤ s.clock) ?_ ?_
  · intro s h0 z hz
    cases h0
    simp only [init] at hz
    split at hz
    · rw [List.mem_singleton.mp hz]
      exact Nat.zero_le _
    · cases hz
  · intro s l s' h _ hn
    obtain ⟨s₁, ha, rfl⟩ := Option.map_eq_some_iff.mp hn
    obtain ⟨hzeros, hclock⟩ := act_clock ha
    rw [← hzeros, ← hclock] at h
    intro z hz
    simp only [St.tick] at hz ⊢
    split at hz
    · rcases List.mem_cons.mp hz with rfl | hz
      · exact Nat.le_refl _
      · exact Nat.le_succ_of_le (h z hz)
    · exact Nat.le_succ_of_le (h z hz)

/-- A thread that waits with `notified_` set returns in its next step. -/
theorem return_early {began : Nat} (ht : s.threads[t]? = some (.locking began))
    (hn : s.notified = true)
    (h0 : s.counter ≠ 0) (hz : ∀ z ∈ s.zeros, z < began) :
    ∃ s', step s (.run t) = some s' ∧ ¬ Returns s' := by
  have ha : act s (.run t) = some (s.set t (.returned began)) := by simp only [act, ht, hn, if_true]
  refine ⟨(s.set t (.returned began)).tick, by rw [step, ha]; rfl, fun hr => ?_⟩
  obtain ⟨hlt, -⟩ := List.getElem?_eq_some_iff.mp ht
  have hmem : Pc.returned began ∈ (s.set t (.returned began)).tick.threads :=
    List.mem_set hlt _
  obtain ⟨z, hzm, hle⟩ := hr began hmem
  have hzeros : (s.set t (.returned began)).tick.zeros = s.zeros := if_neg h0
  rw [hzeros] at hzm
  exact absurd (hz z hzm) (Nat.not_lt.mpr hle)

/-- A thread that begins to wait while a notification is there or on its way may return without a
zero of the counter. -/
theorem stale_wait (hz : ∀ z ∈ s.zeros, z ≤ s.clock) {l : Label} (hs : step s l = some s')
    (hf : ¬ Fresh s l) :
    ∃ ls s'', runLabels (guarded step Legal) s' ls = some s'' ∧ ¬ Returns s'' := by
  cases l with
  | wait t =>
    obtain ⟨s₁, ha, rfl⟩ := Option.map_eq_some_iff.mp hs
    obtain ⟨ht, ha⟩ := Option.ite_none_right_eq_some.mp ha
    cases ha
    obtain ⟨h0, hstale⟩ := not_or.mp hf
    have hdiv : ¬ s.state / 2 = 0 := h0
    have hnew : (s.wait t).threads = s.threads.set t (.locking (s.clock + 1)) := by
      show s.threads.set t (if s.state / 2 = 0 then _ else _) = _
      rw [if_neg hdiv]
    have hcounter : (s.wait t).counter ≠ 0 := fun h => h0 ((fetchOr_div s.state).symm.trans h)
    have hzeros : (s.wait t).tick.zeros = s.zeros := if_neg hcounter
    have hpast : ∀ z ∈ (s.wait t).tick.zeros, z < s.clock + 1 := fun z hzm =>
      Nat.lt_succ_of_le (hz z (hzeros ▸ hzm))
    have hlt : t < s.threads.length := by
      rcases ht with ht | ht
      · exact (List.getElem?_eq_some_iff.mp ht).1
      · exact (List.getElem?_eq_some_iff.mp ht).1
    have hself : (s.wait t).tick.threads[t]? = some (.locking (s.clock + 1)) := by
      show (s.wait t).threads[t]? = _
      rw [hnew, List.getElem?_set_self hlt]
    by_cases hnot : s.notified = true
    · obtain ⟨s'', hrun, hr⟩ := return_early hself hnot hcounter hpast
      refine ⟨[.run t], s'', ?_, hr⟩
      simp only [runLabels, guarded, Legal, if_true, hrun, Option.bind_some]
    · -- the notifier sets `notified_` first
      have hnotifier : ∃ pc ∈ s.threads, pc.notifying = true := by
        by_contra hnone
        push Not at hnone
        exact hstale ⟨Bool.not_eq_true _ ▸ hnot, fun pc hpc => Bool.not_eq_true _ ▸ hnone pc hpc⟩
      obtain ⟨pc, hpc, hn⟩ := hnotifier
      obtain ⟨u, hu⟩ := List.mem_iff_getElem?.mp hpc
      have hut : u ≠ t := by
        rintro rfl
        rcases ht with ht | ht
        · rw [ht] at hu
          cases hu
          cases hn
        · rw [ht] at hu
          cases hu
          cases hn
      cases pc with
      | notify arrive =>
        have hu' : (s.wait t).tick.threads[u]? = some (.notify arrive) := by
          show (s.wait t).threads[u]? = _
          rw [hnew, List.getElem?_set_ne hut.symm, hu]
        have hact : act (s.wait t).tick (.run u) = some ((s.wait t).tick.notify u arrive) := by
          simp only [act, hu']
        have hstep : step (s.wait t).tick (.run u) = some ((s.wait t).tick.notify u arrive).tick := by
          rw [step, hact]
          rfl
        have hself' : ((s.wait t).tick.notify u arrive).tick.threads[t]? =
            some (.locking (s.clock + 1)) := by
          show (((s.wait t).tick.threads.map Pc.wake).set u (after arrive))[t]? = _
          rw [List.getElem?_set_ne hut, List.getElem?_map, hself]
          rfl
        have hzeros' : ((s.wait t).tick.notify u arrive).tick.zeros = (s.wait t).tick.zeros :=
          if_neg hcounter
        obtain ⟨s'', hrun, hr⟩ := return_early hself' rfl hcounter (hzeros'.symm ▸ hpast)
        refine ⟨[.run u, .run t], s'', ?_, hr⟩
        simp only [runLabels, guarded, Legal, if_true, hstep, Option.bind_some, hrun]
      | _ => cases hn
  | _ => exact absurd trivial hf

/-- In every run in which no thread begins to wait while a notification is there or on its way, a
call of `wait` returns after the counter was zero; after any other beginning it may return early. -/
theorem latch_returns (c n : Nat) :
    (∀ s, (sys c n).Reach (fun s l => Legal s l ∧ Fresh s l) s → Returns s) ∧
      ∀ s l s', (sys c n).Reach Legal s → (sys c n).next s l s' → ¬ Fresh s l →
        ∃ ls s'', runLabels (guarded step Legal) s' ls = some s'' ∧ ¬ Returns s'' := by
  constructor
  · intro s hs
    have h : Waits s := by
      refine hs.invariant ?_ ?_
      · intro s h0
        cases h0
        exact waits_init c n
      · intro s l s' h hok hn
        exact h.step hok.1 hok.2 hn
    exact h.returns
  · intro s l s' hs hn hf
    exact stale_wait (zeros_le hs) hn hf

/-- A thread waits, the counter is counted down, and rises again; then a thread waits. -/
def risen : List Label :=
  [.wait 0, .countDown 1 1, .run 1, .addCount 1 1, .wait 1, .run 1]

/-- The second call returns at once. -/
theorem not_latch_returns :
    ¬ ∀ s, (sys 1 2).Reach Legal s → s.failed = false → Returns s := by
  intro h
  have hr : ∀ s, runLabels (guarded step Legal) (init 1 2) risen = some s → s.failed = false →
      Returns s := fun s hs => h s (reach_guarded (.init rfl) risen hs)
  have hreturns := hr _ rfl rfl
  obtain ⟨z, hz, hle⟩ := hreturns 5 (by decide)
  have hall : ∀ z ∈ [3, 2], ¬ 5 ≤ z := by decide
  exact hall z hz hle

/-- The count is raised before it is counted down, and the thread that waits returns. -/
theorem latch_returns_raised : ∃ s : St, s.threads = [.returned 2, .idle] ∧ s.zeros = [5, 4, 3] ∧
    Returns s := by
  have hreach : ∀ s, (sys 1 2).Reach (fun s l => Legal s l ∧ Fresh s l) s → Returns s :=
    (latch_returns 1 2).1
  have h0 : (sys 1 2).Reach (fun s l => Legal s l ∧ Fresh s l) (init 1 2) := .init rfl
  have h1 := h0.step (l := Label.addCount 0 1) ⟨trivial, trivial⟩ rfl
  have h2 := h1.step (l := Label.wait 0) ⟨trivial, .inr ⟨rfl, by decide⟩⟩ rfl
  have h3 := h2.step (l := Label.countDown 1 2) ⟨by decide, trivial⟩ rfl
  have h4 := h3.step (l := Label.run 1) ⟨trivial, trivial⟩ rfl
  have h5 := h4.step (l := Label.run 0) ⟨trivial, trivial⟩ rfl
  exact ⟨_, rfl, rfl, hreach _ h5⟩

end Latch

end AsyncLib
