import AsyncLib.Lib.Stride
import Mathlib.Data.Nat.GCD.Basic

/-!
# The order in which queues are visited

`async/concurrent/work_queue_base.h`: `FastReduce`, `ComputeCoprimes`, and the loops over the queues
of `Steal` and `NonEmptyQueueIndex`, with that of `EnqueueBlockingTask` of `blocking_work_queue.h`.
Machine words are numbers with the remainders that the code's types give.

* `nextVictim`, `search`: the loop that the three functions share. What a queue answers may depend
  on the iteration, since other threads go on.
* `mem_computeCoprimes`: the list holds the units modulo `n`. `victims_perm`: every queue is on the
  path once.
* `Walk`: what a loop over a path of queues asks and answers. `search_walk`: the loop walks along
  the strides of its increment.
* `victims_spec`: what follows for the three functions.
-/

namespace AsyncLib

namespace WorkQueueBase

/-! ## The code -/

/-- `FastReduce`: a product of 64 bits, shifted by 32. -/
def fastReduce (x size : Nat) : Nat := x * size % 2 ^ 64 / 2 ^ 32 % 2 ^ 32

/-- The loop of `ComputeCoprimes` over `a` and `b`. -/
def euclid (a b : Nat) : Nat := if b = 0 then a else euclid b (a % b)
termination_by b
decreasing_by exact Nat.mod_lt _ (Nat.pos_of_ne_zero ‹b ≠ 0›)

/-- `ComputeCoprimes`. -/
def computeCoprimes (n : Nat) : List Nat := (List.range' 1 n).filter fun i => euclid i n = 1

/-- `if ((victim += inc) >= mNumThreads) victim -= mNumThreads`. -/
def nextVictim (mNumThreads inc victim : Nat) : Nat :=
  let victim := (victim + inc) % 2 ^ 32
  if mNumThreads ≤ victim then victim - mNumThreads else victim

variable {α β : Type}

/-- The loop over the queues, from iteration `i` to the first one with an answer: the answer, and
the queues that were visited. -/
def search (mNumThreads inc : Nat) (ask : Nat → Nat → Option β) :
    Nat → Nat → Nat → Option β × List Nat
  | 0, _, _ => (none, [])
  | fuel + 1, i, victim =>
    match ask i victim with
    | some b => (some b, [victim])
    | none =>
      let p := search mNumThreads inc ask fuel (i + 1) (nextVictim mNumThreads inc victim)
      (p.1, victim :: p.2)

/-- The index into `mCoprimes` of `Steal`. -/
def stealIndex (mNumThreads r : Nat) : Nat :=
  fastReduce r ((computeCoprimes mNumThreads).length % 2 ^ 32)

/-- `Steal`: `pop i victim` is what the pop from the queue `victim` in iteration `i` returns. -/
def steal (mNumThreads r : Nat) (pop : Nat → Nat → Option α) : Option α × List Nat :=
  let victim := fastReduce r mNumThreads
  let inc := (computeCoprimes mNumThreads).getD (stealIndex mNumThreads r) 0
  search mNumThreads inc pop mNumThreads 0 victim

/-- The index into `mCoprimes` of `NonEmptyQueueIndex`. -/
def nonEmptyIndex (mNumThreads r : Nat) : Nat := r % (computeCoprimes mNumThreads).length

/-- `NonEmptyQueueIndex`: `empty i victim` is what `Empty` of the queue answers in iteration `i`. -/
def nonEmptyQueueIndex (mNumThreads r : Nat) (empty : Nat → Nat → Bool) : Int × List Nat :=
  let inc := if mNumThreads = 1 then 1
    else (computeCoprimes mNumThreads).getD (nonEmptyIndex mNumThreads r) 0
  let victim := fastReduce r mNumThreads
  let p := search mNumThreads inc (fun i v => if empty i v then none else some v) mNumThreads 0
    victim
  (match p.1 with
    | some v => Int.bmod v (2 ^ 32)
    | none => -1, p.2)

/-- The loop of `EnqueueBlockingTask` of a thread of another pool: `pushFront i victim` is what the
push returns, the task if the queue is full. -/
def enqueueBlockingTask (mNumThreads r : Nat) (pushFront : Nat → Nat → Option α) :
    Option Unit × List Nat :=
  let victim := fastReduce r mNumThreads
  let inc := (computeCoprimes mNumThreads).getD (stealIndex mNumThreads r) 0
  search mNumThreads inc (fun i v => if (pushFront i v).isNone then some () else none) mNumThreads 0
    victim

/-! ## The increments -/

theorem euclid_eq (a b : Nat) : euclid a b = Nat.gcd a b := by
  induction b using Nat.strongRecOn generalizing a with
  | _ b ih =>
    rw [euclid]
    split
    · rename_i hb
      rw [hb, Nat.gcd_zero_right]
    · rename_i hb
      rw [ih _ (Nat.mod_lt _ (Nat.pos_of_ne_zero hb)), Nat.gcd_comm a b, Nat.gcd_rec b a,
        Nat.gcd_comm]

/-- The increments are the units modulo `n`. -/
theorem mem_computeCoprimes {n i : Nat} :
    i ∈ computeCoprimes n ↔ 1 ≤ i ∧ i ≤ n ∧ Nat.Coprime i n := by
  simp only [computeCoprimes, List.mem_filter, List.mem_range'_1, decide_eq_true_eq, euclid_eq,
    Nat.Coprime]
  omega

theorem computeCoprimes_ne_nil {n : Nat} (hn : 1 ≤ n) : computeCoprimes n ≠ [] := by
  refine List.ne_nil_of_mem (mem_computeCoprimes.mpr ⟨Nat.le_refl 1, hn, Nat.coprime_one_left n⟩)

theorem length_computeCoprimes_le (n : Nat) : (computeCoprimes n).length ≤ n := by
  have := List.length_filter_le (fun i => decide (euclid i n = 1)) (List.range' 1 n)
  rwa [List.length_range'] at this

theorem fastReduce_lt {x size : Nat} (hx : x < 2 ^ 32) (hs : 0 < size) (hs' : size < 2 ^ 32) :
    fastReduce x size < size := by
  have hlt : x * size < 2 ^ 32 * size := Nat.mul_lt_mul_of_pos_right hx hs
  have h64 : x * size < 2 ^ 64 := Nat.lt_trans hlt (Nat.mul_lt_mul_of_pos_left hs' (by decide))
  have hdiv : x * size / 2 ^ 32 < size := Nat.div_lt_of_lt_mul hlt
  rw [fastReduce, Nat.mod_eq_of_lt h64, Nat.mod_eq_of_lt (Nat.lt_trans hdiv hs')]
  exact hdiv

/-! ## The victims -/

/-- A conditional subtraction is a remainder. -/
theorem nextVictim_eq {n inc victim : Nat} (hn : n < 2 ^ 31) (hv : victim < n) (hi : inc ≤ n) :
    nextVictim n inc victim = (victim + inc) % n := by
  have hword : (victim + inc) % 2 ^ 32 = victim + inc := Nat.mod_eq_of_lt (by omega)
  simp only [nextVictim, hword]
  split
  · rename_i hle
    rw [Nat.mod_eq_sub_mod hle, Nat.mod_eq_of_lt (by omega)]
  · rw [Nat.mod_eq_of_lt (by omega)]

/-- The queues that the loop visits if it has no answer. -/
def victims (n inc start : Nat) : List Nat := (List.range n).map (stride n start inc)

/-- Every queue is on the path once. -/
theorem victims_perm {n inc start : Nat} (hn : 0 < n) (hc : inc ∈ computeCoprimes n) :
    (victims n inc start).Perm (List.range n) :=
  stride_perm hn (mem_computeCoprimes.mp hc).2.2

/-! ## A walk along a path -/

/-- A loop along `path` that asks the queue of iteration `k` by `ask k`, and stops at the first
answer: what it answers, and the queues that it visited. -/
structure Walk (ask : Nat → Nat → Option β) (path : List Nat) (answer : Option β)
    (visited : List Nat) : Prop where
  /-- The queues are visited in the order of the path. -/
  isPrefix : visited <+: path
  /-- Every queue before the last one had no answer. -/
  refused : ∀ k v, visited[k]? = some v → k + 1 < visited.length → ask k v = none
  /-- The answer is that of the last queue. -/
  answered : ∀ b, answer = some b →
    ∃ v, visited.getLast? = some v ∧ ask (visited.length - 1) v = some b
  /-- A loop without an answer visited the whole path. -/
  whole : answer = none → visited = path
  /-- There is no answer exactly if no queue of the path has one. -/
  none_iff : answer = none ↔ ∀ k v, path[k]? = some v → ask k v = none

variable {ask : Nat → Nat → Option β} {path visited : List Nat} {answer : Option β}

/-- The end of the path. -/
theorem Walk.nil : Walk ask [] none [] where
  isPrefix := List.nil_prefix
  refused := fun k v h => by simp at h
  answered := fun b h => by cases h
  whole := fun _ => rfl
  none_iff := by simp

/-- The first queue answers. -/
theorem Walk.stop {v : Nat} {b : β} (h : ask 0 v = some b) : Walk ask (v :: path) (some b) [v] where
  isPrefix := List.cons_prefix_cons.mpr ⟨rfl, List.nil_prefix⟩
  refused := fun k v _ hk => absurd hk (by simp)
  answered := fun b' hb => ⟨v, rfl, h.trans hb⟩
  whole := fun h => by cases h
  none_iff := by
    refine ⟨fun h => (by cases h), fun hall => ?_⟩
    rw [hall 0 v rfl] at h
    cases h

/-- The first queue has no answer: the walk goes on along the rest of the path. -/
theorem Walk.cons {v : Nat} (h : ask 0 v = none)
    (hw : Walk (fun k => ask (k + 1)) path answer visited) :
    Walk ask (v :: path) answer (v :: visited) where
  isPrefix := List.cons_prefix_cons.mpr ⟨rfl, hw.isPrefix⟩
  refused := by
    intro k w hk hlt
    cases k with
    | zero => rwa [← Option.some.inj hk]
    | succ k => exact hw.refused k w hk (Nat.lt_of_succ_lt_succ hlt)
  answered := by
    intro b hb
    obtain ⟨w, hlast, hask⟩ := hw.answered b hb
    have hne : visited ≠ [] := fun h => by simp [h] at hlast
    have hpos : 0 < visited.length := List.length_pos_of_ne_nil hne
    have hlen : (v :: visited).length - 1 = visited.length - 1 + 1 := by
      rw [List.length_cons]
      omega
    refine ⟨w, ?_, by rw [hlen]; exact hask⟩
    rw [List.getLast?_cons, hlast, Option.getD_some]
  whole := fun hn => by rw [hw.whole hn]
  none_iff := by
    rw [hw.none_iff]
    constructor
    · intro hall k w hk
      cases k with
      | zero => rwa [← Option.some.inj hk]
      | succ k => exact hall k w hk
    · exact fun hall k w hk => hall (k + 1) w hk

/-- The loop walks along the strides, from iteration `i` on. -/
theorem search_walk {n inc : Nat} (start : Nat) (ask : Nat → Nat → Option β) (hn : n < 2 ^ 31)
    (hpos : 0 < n) (hi : inc ≤ n) (fuel i : Nat) :
    Walk (fun k => ask (i + k)) ((List.range' i fuel).map (stride n start inc))
      (search n inc ask fuel i (stride n start inc i)).1
      (search n inc ask fuel i (stride n start inc i)).2 := by
  induction fuel generalizing i with
  | zero => exact Walk.nil
  | succ fuel ih =>
    have hnext : nextVictim n inc (stride n start inc i) = stride n start inc (i + 1) := by
      rw [nextVictim_eq hn (stride_lt hpos i) hi, stride_succ]
    rw [search, List.range'_succ, List.map_cons]
    cases hask : ask i (stride n start inc i) with
    | some b => exact Walk.stop hask
    | none =>
      have hrest := ih (i + 1)
      simp only [hnext]
      refine Walk.cons hask ?_
      simpa only [Nat.add_assoc, Nat.add_comm 1] using hrest

variable {n r : Nat}

/-- The first victim of each of the three loops. -/
theorem stride_zero {inc start : Nat} (hs : start < n) : stride n start inc 0 = start := by
  rw [stride, Nat.zero_mul, Nat.add_zero, Nat.mod_eq_of_lt hs]

/-- The loop from a random start by an increment of the list. -/
theorem search_victims (ask : Nat → Nat → Option β) (hn : 1 ≤ n) (hn' : n < 2 ^ 31)
    {inc start : Nat} (hs : start < n) (hc : inc ∈ computeCoprimes n) :
    Walk ask (victims n inc start) (search n inc ask n 0 start).1 (search n inc ask n 0 start).2 := by
  have hwalk := search_walk start ask hn' hn (mem_computeCoprimes.mp hc).2.1 n 0
  simp only [stride_zero hs, ← List.range_eq_range', Nat.zero_add] at hwalk
  exact hwalk

/-! ## The three functions -/

theorem stealIndex_lt (hn : 1 ≤ n) (hn' : n < 2 ^ 31) (hr : r < 2 ^ 32) :
    stealIndex n r < (computeCoprimes n).length := by
  have hpos : 0 < (computeCoprimes n).length := List.length_pos_of_ne_nil
    (computeCoprimes_ne_nil hn)
  have hle := length_computeCoprimes_le n
  have hword : (computeCoprimes n).length % 2 ^ 32 = (computeCoprimes n).length :=
    Nat.mod_eq_of_lt (by omega)
  rw [stealIndex, hword]
  exact fastReduce_lt hr hpos (by omega)

theorem nonEmptyIndex_lt (hn : 1 ≤ n) : nonEmptyIndex n r < (computeCoprimes n).length :=
  Nat.mod_lt _ (List.length_pos_of_ne_nil (computeCoprimes_ne_nil hn))

/-- An index in bounds gives an increment of the list. -/
theorem getElem?_of_lt {i : Nat} (hi : i < (computeCoprimes n).length) :
    ∃ inc, (computeCoprimes n)[i]? = some inc ∧ (computeCoprimes n).getD i 0 = inc ∧
      inc ∈ computeCoprimes n := by
  refine ⟨(computeCoprimes n)[i], List.getElem?_eq_getElem hi, ?_, List.getElem_mem hi⟩
  rw [List.getD_eq_getElem?_getD, List.getElem?_eq_getElem hi, Option.getD_some]

/-- A queue index is an `int`. -/
theorem bmod_eq {v : Nat} (hv : v < 2 ^ 31) : Int.bmod v (2 ^ 32) = v :=
  Int.bmod_eq_of_le (by omega) (by omega)

/-- `Steal`. -/
theorem steal_walk (hn : 1 ≤ n) (hn' : n < 2 ^ 31) (hr : r < 2 ^ 32) :
    ∃ inc, (computeCoprimes n)[stealIndex n r]? = some inc ∧
      (victims n inc (fastReduce r n)).Perm (List.range n) ∧
      ∀ pop : Nat → Nat → Option α,
        Walk pop (victims n inc (fastReduce r n)) (steal n r pop).1 (steal n r pop).2 := by
  obtain ⟨inc, hget, hinc, hmem⟩ := getElem?_of_lt (stealIndex_lt hn hn' hr)
  refine ⟨inc, hget, victims_perm hn hmem, fun pop => ?_⟩
  simp only [steal, hinc]
  exact search_victims pop hn hn' (fastReduce_lt hr hn (by omega)) hmem

/-- `EnqueueBlockingTask`. -/
theorem enqueueBlockingTask_walk (hn : 1 ≤ n) (hn' : n < 2 ^ 31) (hr : r < 2 ^ 32) :
    ∃ inc, (computeCoprimes n)[stealIndex n r]? = some inc ∧
      (victims n inc (fastReduce r n)).Perm (List.range n) ∧
      ∀ pushFront : Nat → Nat → Option α,
        Walk (fun k v => if (pushFront k v).isNone then some () else none)
          (victims n inc (fastReduce r n)) (enqueueBlockingTask n r pushFront).1
          (enqueueBlockingTask n r pushFront).2 := by
  obtain ⟨inc, hget, hinc, hmem⟩ := getElem?_of_lt (stealIndex_lt hn hn' hr)
  refine ⟨inc, hget, victims_perm hn hmem, fun pushFront => ?_⟩
  simp only [enqueueBlockingTask, hinc]
  exact search_victims _ hn hn' (fastReduce_lt hr hn (by omega)) hmem

/-- The increment of `NonEmptyQueueIndex`. -/
theorem nonEmptyInc_mem (hn : 1 ≤ n) :
    ∃ inc, (computeCoprimes n)[nonEmptyIndex n r]? = some inc ∧
      (if n = 1 then 1 else (computeCoprimes n).getD (nonEmptyIndex n r) 0) = inc ∧
      inc ∈ computeCoprimes n := by
  obtain ⟨inc, hget, hinc, hmem⟩ := getElem?_of_lt (nonEmptyIndex_lt (r := r) hn)
  refine ⟨inc, hget, ?_, hmem⟩
  split
  · -- one is the only increment for one thread
    rename_i h1
    have := mem_computeCoprimes.mp hmem
    omega
  · exact hinc

/-- `NonEmptyQueueIndex`: its answer is the queue that it stopped at, or `-1`. -/
theorem nonEmptyQueueIndex_walk (hn : 1 ≤ n) (hn' : n < 2 ^ 31) (hr : r < 2 ^ 32) :
    ∃ inc, (computeCoprimes n)[nonEmptyIndex n r]? = some inc ∧
      (victims n inc (fastReduce r n)).Perm (List.range n) ∧
      ∀ empty : Nat → Nat → Bool, ∃ answer : Option Nat,
        Walk (fun k v => if empty k v then none else some v) (victims n inc (fastReduce r n))
          answer (nonEmptyQueueIndex n r empty).2 ∧
        (nonEmptyQueueIndex n r empty).1 = answer.elim (-1) Int.ofNat := by
  have hs : fastReduce r n < n := fastReduce_lt hr hn (by omega)
  obtain ⟨inc, hget, hinc, hmem⟩ := nonEmptyInc_mem (r := r) hn
  have hperm : (victims n inc (fastReduce r n)).Perm (List.range n) := victims_perm hn hmem
  refine ⟨inc, hget, hperm, fun empty => ?_⟩
  simp only [nonEmptyQueueIndex, hinc]
  have hwalk := search_victims (fun k v => if empty k v then none else some v) hn hn' hs hmem
  refine ⟨_, hwalk, ?_⟩
  cases hp : (search n inc (fun k v => if empty k v then none else some v) n 0
    (fastReduce r n)).1 with
  | none => rfl
  | some v =>
    obtain ⟨w, hlast, hask⟩ := hwalk.answered v hp
    have hw : w < n := by
      have := hwalk.isPrefix.subset (List.mem_of_getLast? hlast)
      exact List.mem_range.mp (hperm.subset this)
    have hv : w = v := by grind
    exact bmod_eq (by omega)

/-- `-1` says that every queue was found empty. -/
theorem nonEmptyQueueIndex_eq_neg_one {empty : Nat → Nat → Bool} {answer : Option Nat}
    (hw : Walk (fun k v => if empty k v then none else some v) path answer visited) :
    answer.elim (-1) Int.ofNat = -1 ↔
      visited = path ∧ ∀ k v, path[k]? = some v → empty k v = true := by
  constructor
  · intro h
    cases answer with
    | none =>
      refine ⟨hw.whole rfl, fun k v hk => ?_⟩
      have := hw.none_iff.mp rfl k v hk
      grind
    | some v => cases h
  · intro h
    have : answer = none := hw.none_iff.mpr fun k v hk => if_pos (h.2 k v hk)
    rw [this]
    rfl

/-- The walks of the three functions: the increment is read in bounds, the path from
`FastReduce(r, n)` by this increment meets each of the `n` queues once, the queues are asked in its
order until one answers, and `NonEmptyQueueIndex` answers `-1` exactly if it found every queue
empty. -/
theorem victims_spec (hn : 1 ≤ n) (hn' : n < 2 ^ 31) (hr : r < 2 ^ 32) :
    (∃ inc, (computeCoprimes n)[stealIndex n r]? = some inc ∧
      (victims n inc (fastReduce r n)).Perm (List.range n) ∧
      (∀ pop : Nat → Nat → Option α,
        Walk pop (victims n inc (fastReduce r n)) (steal n r pop).1 (steal n r pop).2) ∧
      ∀ pushFront : Nat → Nat → Option α,
        Walk (fun k v => if (pushFront k v).isNone then some () else none)
          (victims n inc (fastReduce r n)) (enqueueBlockingTask n r pushFront).1
          (enqueueBlockingTask n r pushFront).2) ∧
    ∃ inc, (computeCoprimes n)[nonEmptyIndex n r]? = some inc ∧
      (victims n inc (fastReduce r n)).Perm (List.range n) ∧
      ∀ empty : Nat → Nat → Bool, ∃ answer : Option Nat,
        Walk (fun k v => if empty k v then none else some v) (victims n inc (fastReduce r n))
          answer (nonEmptyQueueIndex n r empty).2 ∧
        (nonEmptyQueueIndex n r empty).1 = answer.elim (-1) Int.ofNat ∧
        ((nonEmptyQueueIndex n r empty).1 = -1 ↔
          (nonEmptyQueueIndex n r empty).2 = victims n inc (fastReduce r n) ∧
          ∀ k v, (victims n inc (fastReduce r n))[k]? = some v → empty k v = true) := by
  constructor
  · obtain ⟨inc, hget, hperm, hsteal⟩ := steal_walk (α := α) hn hn' hr
    obtain ⟨inc', hget', -, henq⟩ := enqueueBlockingTask_walk (α := α) hn hn' hr
    obtain rfl : inc = inc' := Option.some.inj (hget.symm.trans hget')
    exact ⟨inc, hget, hperm, hsteal, henq⟩
  · obtain ⟨inc, hget, hperm, hne⟩ := nonEmptyQueueIndex_walk hn hn' hr
    refine ⟨inc, hget, hperm, fun empty => ?_⟩
    obtain ⟨answer, hwalk, hres⟩ := hne empty
    refine ⟨answer, hwalk, hres, ?_⟩
    rw [hres]
    exact nonEmptyQueueIndex_eq_neg_one hwalk

/-- Six queues, and only the queue `2` holds a task: the path starts at the queue `5`. -/
theorem victims_spec_six : ∃ inc, (computeCoprimes 6)[stealIndex 6 4000000000]? = some inc ∧
    Walk (fun _ v => if v = 2 then some v else none) (victims 6 inc 5)
      (steal 6 4000000000 fun _ v => if v = 2 then some v else none).1
      (steal 6 4000000000 fun _ v => if v = 2 then some v else none).2 := by
  obtain ⟨⟨inc, hget, -, hsteal, -⟩, -⟩ := victims_spec (n := 6) (r := 4000000000) (α := Nat)
    (by decide) (by decide) (by decide)
  exact ⟨inc, hget, hsteal _⟩

end WorkQueueBase

end AsyncLib
