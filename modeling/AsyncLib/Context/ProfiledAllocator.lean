import AsyncLib.Lib.HighWater
import AsyncLib.Lib.Modify
import AsyncLib.Lib.System

/-!
# `ProfiledAllocator`

`async/context/profiled_allocator.cpp`. Any number of threads allocate and free buffers. Each atomic
access of `AllocateBytes`, `AtomicUpdateMax` and `DeallocateBytes` is one step. The counters are
`int64_t`s that wrap around. `mAllocator` may return a null pointer, after the request was counted; a
buffer that it does return can be freed by any thread, once.

* `Counter`: the counter that a call of `AtomicUpdateMax` is for.
* `Fits`: no counter is raised to `2^63`.
* `Recorded`: no counter is lowered from a value that was not read yet and is above the recorded
  maximum.
* `profile_correct`: when no call is in progress, the counters are right if no request failed, and the
  maxima in the runs whose steps are recorded. A value that another step leaves unrecorded is missed
  until the counter is there again.
-/

namespace AsyncLib

namespace ProfiledAllocator

open Sys HighWater

/-! ## The code -/

/-- A counter, and the maximum that is kept of it. -/
inductive Counter where
  /-- `mCurNumAllocations` and `mMaxNumAllocations`. -/
  | num
  /-- `mCurrBytesAllocated` and `mMaxBytesAllocated`. -/
  | bytes
  deriving DecidableEq, Repr

/-- Where a thread is. -/
inductive Pc where
  | idle
  /-- `++mCumNumAllocations` in `AllocateBytes(size)`. -/
  | cum (size : Nat)
  /-- `mCurrBytesAllocated.fetch_add(size)`. -/
  | fetchAdd (size : Nat)
  /-- The counter is read for a call of `AtomicUpdateMax`. -/
  | read (c : Counter) (size : Nat)
  /-- `prevMaxValue = *maxValue`. -/
  | load (c : Counter) (size : Nat) (value : Int)
  /-- The loop, with the compare-exchange. -/
  | loop (c : Counter) (size : Nat) (value prevMaxValue : Int)
  /-- `mAllocator->AllocateBytes`. -/
  | allocate (size : Nat)
  /-- `mCurrBytesAllocated.fetch_sub(size)` in `DeallocateBytes(size)`. -/
  | fetchSub (size : Nat)
  /-- `mAllocator->DeallocateBytes`. -/
  | deallocate
  deriving DecidableEq, Repr

/-- The members of the allocator, the threads and the buffers. -/
structure St where
  mCurNumAllocations : Int
  mMaxNumAllocations : Int
  mCumNumAllocations : Int
  mCurrBytesAllocated : Int
  mMaxBytesAllocated : Int
  threads : List Pc
  /-- The sizes of the buffers that are allocated. -/
  live : List Nat
  /-- The sizes of the requests for which `mAllocator` had no buffer. -/
  failed : List Nat
  /-- The largest value that `mCurNumAllocations` has had; no code reads it. -/
  peakNum : Int
  /-- The same for `mCurrBytesAllocated`. -/
  peakBytes : Int
  deriving DecidableEq, Repr

/-- A call starts, or a thread takes its next step. -/
inductive Label where
  /-- `AllocateBytes` is called, to its first increment. -/
  | allocateBytes (t size : Nat)
  /-- `DeallocateBytes` is called for the live buffer `k`, to its first decrement. -/
  | deallocateBytes (t k : Nat)
  /-- The next step of a call; `spurious` if a compare-exchange fails for no reason. -/
  | step (t : Nat) (spurious : Bool)
  /-- `mAllocator->AllocateBytes` returns a null pointer. -/
  | fail (t : Nat)
  deriving DecidableEq, Repr

/-- The counter itself. -/
def St.cur (s : St) : Counter → Int
  | .num => s.mCurNumAllocations
  | .bytes => s.mCurrBytesAllocated

/-- The maximum that is recorded. -/
def St.max (s : St) : Counter → Int
  | .num => s.mMaxNumAllocations
  | .bytes => s.mMaxBytesAllocated

/-- The largest value that the counter has had. -/
def St.peak (s : St) : Counter → Int
  | .num => s.peakNum
  | .bytes => s.peakBytes

/-- The counter gets a new value. -/
def St.setCur (s : St) (value : Int) : Counter → St
  | .num => { s with
      mCurNumAllocations := value
      peakNum := Max.max s.peakNum value }
  | .bytes => { s with
      mCurrBytesAllocated := value
      peakBytes := Max.max s.peakBytes value }

/-- `fetch_add` of an `int64_t`. -/
def St.add (s : St) (d : Int) (c : Counter) : St := s.setCur (Int.bmod (s.cur c + d) (2 ^ 64)) c

/-- The maximum gets a new value. -/
def St.setMax (s : St) (value : Int) : Counter → St
  | .num => { s with mMaxNumAllocations := value }
  | .bytes => { s with mMaxBytesAllocated := value }

/-- Thread `t` goes on at `pc`. -/
def St.put (s : St) (t : Nat) (pc : Pc) : St := { s with threads := s.threads.set t pc }

/-- After `AtomicUpdateMax` returns. -/
def Counter.returned (size : Nat) : Counter → Pc
  | .num => .read .bytes size
  | .bytes => .allocate size

/-- The next step of thread `t`, which is at `pc`. -/
def next (s : St) (t : Nat) (spurious : Bool) : Pc → Option St
  | .idle => none
  | .cum size =>
    some ({ s with mCumNumAllocations := s.mCumNumAllocations + 1 }.put t (.fetchAdd size))
  | .fetchAdd size => some ((s.add size .bytes).put t (.read .num size))
  | .read c size => some (s.put t (.load c size (s.cur c)))
  | .load c size value => some (s.put t (.loop c size value (s.max c)))
  | .loop c size value prevMaxValue =>
    if prevMaxValue < value then
      if s.max c = prevMaxValue ∧ spurious = false then
        some ((s.setMax value c).put t (c.returned size))
      else some (s.put t (.loop c size value (s.max c)))
    else some (s.put t (c.returned size))
  | .allocate size => some ({ s with live := size :: s.live }.put t .idle)
  | .fetchSub size => some ((s.add (-size) .bytes).put t .deallocate)
  | .deallocate => some (s.put t .idle)

/-- A step of a thread. -/
def step (s : St) : Label → Option St
  | .allocateBytes t size =>
    if s.threads[t]? = some .idle then some ((s.add 1 .num).put t (.cum size)) else none
  | .deallocateBytes t k =>
    if s.threads[t]? = some .idle then
      s.live[k]?.map fun size =>
        { s.add (-1) .num with live := s.live.eraseIdx k }.put t (.fetchSub size)
    else none
  | .step t spurious => s.threads[t]?.bind (next s t spurious)
  | .fail t =>
    match s.threads[t]? with
    | some (.allocate size) => some ({ s with failed := size :: s.failed }.put t .idle)
    | _ => none

/-- A new allocator, and `n` threads. -/
def init (n : Nat) : St where
  mCurNumAllocations := 0
  mMaxNumAllocations := 0
  mCumNumAllocations := 0
  mCurrBytesAllocated := 0
  mMaxBytesAllocated := 0
  threads := List.replicate n .idle
  live := []
  failed := []
  peakNum := 0
  peakBytes := 0

/-- The system of `n` threads. -/
def sys (n : Nat) : Sys St Label := ofFun (init n) step

/-! ## What a step does -/

/-- The value that the thread has read for its call of `AtomicUpdateMax`. -/
def Pc.value (c : Counter) : Pc → Option Int
  | .load d _ value | .loop d _ value _ => if d = c then some value else none
  | _ => none

/-- The thread has raised the counter and will read it. -/
def Pc.due : Counter → Pc → Bool
  | .num, .cum _ | .num, .fetchAdd _ | .num, .read .num _ => true
  | .bytes, .read _ _ | .bytes, .load .num _ _ | .bytes, .loop .num _ _ _ => true
  | _, _ => false

/-- What the thread has added to the counter for a buffer that is not live. -/
def Pc.holds : Counter → Pc → Nat
  | .num, .cum _ | .num, .fetchAdd _ | .num, .read _ _ | .num, .load _ _ _ | .num, .loop _ _ _ _
  | .num, .allocate _ => 1
  | .bytes, .read _ size | .bytes, .load _ size _ | .bytes, .loop _ size _ _
  | .bytes, .allocate size | .bytes, .fetchSub size => size
  | _, _ => 0

/-- What the counter is for the live buffers and the failed requests. -/
def St.total (s : St) : Counter → Nat
  | .num => s.live.length + s.failed.length
  | .bytes => s.live.sum + s.failed.sum

/-- Some thread will read the counter. -/
def St.isDue (s : St) (c : Counter) : Prop := ∃ pc ∈ s.threads, pc.due c = true

/-- Some thread has read `v`. -/
def St.hasRead (s : St) (c : Counter) (v : Int) : Prop := ∃ pc ∈ s.threads, pc.value c = some v

/-- The value of the counter was recorded, or a thread has read it. -/
def St.recorded (s : St) (c : Counter) : Bool :=
  decide (s.cur c ≤ s.max c) || s.threads.any fun pc => (pc.value c).any (s.cur c ≤ ·)

/-- What the thread's next step takes from `mCurrBytesAllocated`. -/
def Pc.freed : Pc → Nat
  | .fetchSub size => size
  | _ => 0

/-- What the thread's next step adds to `mCurrBytesAllocated`. -/
def Pc.added : Pc → Nat
  | .fetchAdd size => size
  | _ => 0

/-- No counter is raised to `2^63`. -/
def Fits (s : St) : Label → Prop
  | .allocateBytes _ _ => s.mCurNumAllocations + 1 < 2 ^ 63
  | .step t _ => s.mCurrBytesAllocated + s.threads[t]?.elim 0 Pc.added < 2 ^ 63
  | .deallocateBytes _ _ | .fail _ => True

instance (s : St) : (l : Label) → Decidable (Fits s l)
  | .allocateBytes _ _ => inferInstanceAs (Decidable (_ < _))
  | .step _ _ => inferInstanceAs (Decidable (_ < _))
  | .deallocateBytes _ _ | .fail _ => inferInstanceAs (Decidable True)

/-- `mAllocator` has a buffer for every request. -/
def NoFail : Label → Prop
  | .fail _ => False
  | _ => True

instance : (l : Label) → Decidable (NoFail l)
  | .fail _ => inferInstanceAs (Decidable False)
  | .allocateBytes _ _ | .step _ _ | .deallocateBytes _ _ => inferInstanceAs (Decidable True)

/-- No counter is lowered from a value that is not recorded. -/
def Recorded (s : St) : Label → Prop
  | .allocateBytes _ _ | .fail _ => True
  | .deallocateBytes _ _ => s.recorded .num = true
  | .step t _ => s.threads[t]?.elim 0 Pc.freed = 0 ∨ s.recorded .bytes = true

instance (s : St) : (l : Label) → Decidable (Recorded s l)
  | .allocateBytes _ _ | .fail _ => inferInstanceAs (Decidable True)
  | .deallocateBytes _ _ => inferInstanceAs (Decidable (_ = true))
  | .step _ _ => inferInstanceAs (Decidable (_ ∨ _))

theorem recorded_iff {s : St} {c : Counter} :
    s.recorded c = true ↔ Seen (s.max c) (s.hasRead c) (s.cur c) := by
  rw [St.recorded, Bool.or_eq_true, decide_eq_true_iff, List.any_eq_true]
  refine or_congr Iff.rfl ⟨?_, ?_⟩
  · rintro ⟨pc, hpc, hle⟩
    obtain ⟨v, hv, hle⟩ := (Option.any_eq_true ..).mp hle
    exact ⟨v, ⟨pc, hpc, hv⟩, of_decide_eq_true hle⟩
  · rintro ⟨v, ⟨pc, hpc, hv⟩, hle⟩
    exact ⟨pc, hpc, (Option.any_eq_true ..).mpr ⟨v, hv, decide_eq_true hle⟩⟩

/-- What the step of a thread from `pc` to `pc'` does to a counter. -/
inductive Effect (c : Counter) (l : Label) (s s' : St) (pc pc' : Pc) : Prop where
  | raise (d : Nat) (hcur : s'.cur c = s.cur c + d) (hpeak : s'.peak c = max (s.peak c) (s'.cur c))
      (hmax : s'.max c = s.max c) (hdue : pc'.due c = true) (hpc : pc.value c = none)
      (hpc' : pc'.value c = none) (hfit : s'.cur c < 2 ^ 63)
  | lower (d : Nat) (hcur : s'.cur c = s.cur c - d) (hpeak : s'.peak c = max (s.peak c) (s'.cur c))
      (hmax : s'.max c = s.max c) (hdue : pc.due c = false) (hpc : pc.value c = none)
      (hpc' : pc'.value c = none) (hok : Recorded s l ↔ d = 0 ∨ s.recorded c = true)
  | update (hcur : s'.cur c = s.cur c) (hpeak : s'.peak c = s.peak c) (hmax : s.max c ≤ s'.max c)
      (hto : s'.max c = s.max c ∨ pc.value c = some (s'.max c))
      (hkeep : ∀ v, pc.value c = some v → pc'.value c = some v ∨ v ≤ s'.max c)
      (hnew : ∀ v, pc'.value c = some v → pc.value c = some v ∨ v = s.cur c)
      (hdue : pc.due c = true → pc'.due c = true ∨ pc'.value c = some (s.cur c))

/-- What a thread has loaded is not above the maximum. -/
def Pc.Loaded (s : St) : Pc → Prop
  | .loop c _ _ prevMaxValue => prevMaxValue ≤ s.max c
  | _ => True

/-- A step of thread `t` from `pc` to `pc'`. -/
structure Move (l : Label) (s s' : St) (t : Nat) (pc pc' : Pc) : Prop where
  at_pc : s.threads[t]? = some pc
  threads : s'.threads = s.threads.set t pc'
  effect : ∀ c, Effect c l s s' pc pc'
  loaded : pc'.Loaded s'
  total : ∀ c, s'.cur c + s.total c + pc.holds c = s.cur c + s'.total c + pc'.holds c

section Moves

variable {s s' : St} {l : Label} {c : Counter} {pc pc' : Pc}

/-- The step leaves the counter alone. -/
theorem Effect.none (hcur : s'.cur c = s.cur c) (hpeak : s'.peak c = s.peak c)
    (hmax : s'.max c = s.max c) (hvalue : pc'.value c = pc.value c)
    (hdue : pc.due c = true → pc'.due c = true) : Effect c l s s' pc pc' :=
  .update hcur hpeak hmax.ge (.inl hmax) (fun _ hv => .inl (hvalue.trans hv))
    (fun _ hv => .inl (hvalue.symm.trans hv)) fun hd => .inl (hdue hd)

theorem total_eraseIdx {k size : Nat} {live : List Nat} (hk : live[k]? = some size) :
    live.sum = size + (live.eraseIdx k).sum ∧ live.length = 1 + (live.eraseIdx k).length := by
  obtain ⟨hlt, rfl⟩ := List.getElem?_eq_some_iff.mp hk
  have hperm := List.getElem_cons_eraseIdx_perm hlt
  refine ⟨by rw [← hperm.sum_eq, List.sum_cons], ?_⟩
  rw [← hperm.length_eq, List.length_cons, Nat.add_comm]

/-- A counter that stays in its range does not wrap around. -/
theorem add_eq {d : Int} (h0 : 0 ≤ s.cur c + d) (h1 : s.cur c + d < 2 ^ 63) :
    s.add d c = s.setCur (s.cur c + d) c := by
  rw [St.add, Int.bmod_eq_of_le (by omega) (by omega)]

/-- What is true in all runs. -/
structure Inv (s : St) : Prop where
  loaded : ∀ pc ∈ s.threads, pc.Loaded s
  total : ∀ c, s.cur c = s.total c + (s.threads.map (Pc.holds c)).sum
  cur_le : ∀ c, s.cur c ≤ s.peak c
  range : ∀ c, s.cur c < 2 ^ 63

theorem Inv.nonneg (h : Inv s) (c : Counter) : 0 ≤ s.cur c := by
  have := h.total c
  omega

/-- A live buffer is counted. -/
theorem Inv.sub_num (h : Inv s) {k size : Nat} (hk : s.live[k]? = some size) :
    s.add (-1) .num = s.setCur (s.cur .num + -1) .num := by
  have hrange := h.range .num
  have htotal := h.total .num
  have hlen := (total_eraseIdx hk).2
  have : s.total .num = s.live.length + s.failed.length := rfl
  exact add_eq (by omega) (by omega)

/-- A buffer that is being freed is counted. -/
theorem Inv.sub_bytes (h : Inv s) {t size : Nat} (ht : s.threads[t]? = some (.fetchSub size)) :
    s.add (-size) .bytes = s.setCur (s.cur .bytes + -size) .bytes := by
  have hrange := h.range .bytes
  have htotal := h.total .bytes
  have hsum := sum_set (w := Pc.holds .bytes) (y := .idle) ht
  have hold : (Pc.fetchSub size).holds .bytes = size := rfl
  have hnew : Pc.idle.holds .bytes = 0 := rfl
  exact add_eq (by omega) (by omega)

theorem move_allocateBytes {t size : Nat} (h : Inv s) (hf : Fits s (.allocateBytes t size))
    (hs : step s (.allocateBytes t size) = some s') :
    Move (.allocateBytes t size) s s' t .idle (.cum size) := by
  obtain ⟨ht, hs⟩ := Option.ite_none_right_eq_some.mp hs
  have h0 : 0 ≤ s.cur .num + 1 := Int.le_add_one (h.nonneg .num)
  rw [add_eq h0 hf] at hs
  cases hs
  refine ⟨ht, rfl, ?_, trivial, ?_⟩
  · rintro (_ | _)
    · exact .raise 1 rfl rfl rfl rfl rfl rfl hf
    · exact .none rfl rfl rfl rfl nofun
  · rintro (_ | _)
    · show s.mCurNumAllocations + 1 + s.total .num + (0 : Nat) =
        s.mCurNumAllocations + s.total .num + (1 : Nat)
      omega
    · rfl

theorem move_deallocateBytes {t k : Nat} (h : Inv s)
    (hs : step s (.deallocateBytes t k) = some s') :
    ∃ size, Move (.deallocateBytes t k) s s' t .idle (.fetchSub size) := by
  obtain ⟨ht, hs⟩ := Option.ite_none_right_eq_some.mp hs
  obtain ⟨size, hk, hs⟩ := Option.map_eq_some_iff.mp hs
  obtain ⟨hsum, hlen⟩ := total_eraseIdx hk
  rw [h.sub_num hk] at hs
  subst hs
  refine ⟨size, ht, rfl, ?_, trivial, ?_⟩
  · rintro (_ | _)
    · refine .lower 1 rfl rfl rfl rfl rfl rfl ⟨fun h => .inr h, fun h => ?_⟩
      exact h.resolve_left Nat.one_ne_zero
    · exact .none rfl rfl rfl rfl nofun
  · rintro (_ | _)
    · show s.mCurNumAllocations + -1 + (s.live.length + s.failed.length : Nat) + (0 : Nat) =
        s.mCurNumAllocations + ((s.live.eraseIdx k).length + s.failed.length : Nat) + (0 : Nat)
      omega
    · show s.mCurrBytesAllocated + (s.live.sum + s.failed.sum : Nat) + (0 : Nat) =
        s.mCurrBytesAllocated + ((s.live.eraseIdx k).sum + s.failed.sum : Nat) + (size : Nat)
      omega

/-- `AtomicUpdateMax` returns, with the maximum at least the value. -/
theorem effect_returned {size : Nat} {value prevMaxValue : Int} (hcur : ∀ d, s'.cur d = s.cur d)
    (hpeak : ∀ d, s'.peak d = s.peak d) (hmax : ∀ d, d ≠ c → s'.max d = s.max d)
    (hle : s.max c ≤ s'.max c) (hto : s'.max c = s.max c ∨ value = s'.max c)
    (hvalue : value ≤ s'.max c) (d : Counter) :
    Effect d l s s' (.loop c size value prevMaxValue) (c.returned size) := by
  by_cases hd : d = c
  · subst hd
    have hread : (Pc.loop d size value prevMaxValue).value d = some value := if_pos rfl
    refine .update (hcur d) (hpeak d) hle (hto.imp_right fun h => hread.trans (congrArg some h)) ?_ ?_ ?_
    · rintro v hv
      rw [hread] at hv
      exact .inr (Option.some.inj hv ▸ hvalue)
    · cases d <;> exact nofun
    · cases d <;> exact nofun
  · refine .none (hcur d) (hpeak d) (hmax d hd) ?_ ?_
    · cases c <;> cases d <;> first | rfl | exact absurd rfl hd
    · cases c with
      | num => exact fun _ => by cases d <;> first | rfl | exact absurd rfl hd
      | bytes => cases d <;> exact nofun

theorem cur_setMax (s : St) (value : Int) (c d : Counter) : (s.setMax value c).cur d = s.cur d := by
  cases c <;> cases d <;> rfl

theorem peak_setMax (s : St) (value : Int) (c d : Counter) :
    (s.setMax value c).peak d = s.peak d := by
  cases c <;> cases d <;> rfl

theorem max_setMax (s : St) (value : Int) (c : Counter) : (s.setMax value c).max c = value := by
  cases c <;> rfl

theorem max_setMax_ne (s : St) (value : Int) {c d : Counter} (h : d ≠ c) :
    (s.setMax value c).max d = s.max d := by
  cases c <;> cases d <;> first | rfl | exact absurd rfl h

theorem total_setMax (s : St) (value : Int) (c d : Counter) :
    (s.setMax value c).total d = s.total d := by
  cases c <;> cases d <;> rfl

theorem threads_setMax (s : St) (value : Int) (c : Counter) :
    (s.setMax value c).threads = s.threads := by
  cases c <;> rfl

theorem move_loop {t size : Nat} {value prevMaxValue : Int} {spurious : Bool}
    (ht : s.threads[t]? = some (.loop c size value prevMaxValue)) (hl : prevMaxValue ≤ s.max c)
    (hs : next s t spurious (.loop c size value prevMaxValue) = some s') :
    ∃ pc', Move (.step t spurious) s s' t (.loop c size value prevMaxValue) pc' := by
  rw [next] at hs
  split_ifs at hs with hlt hcas
  · cases hs
    refine ⟨c.returned size, ht, ?_, ?_, ?_, ?_⟩
    · show (s.setMax value c).threads.set t _ = s.threads.set t _
      rw [threads_setMax]
    · have hmax : (s.setMax value c).max c = value := max_setMax s value c
      refine effect_returned (cur_setMax s value c) (peak_setMax s value c)
        (fun d hd => max_setMax_ne s value hd) ?_ (.inr hmax.symm) hmax.ge
      exact (hcas.1.trans_lt hlt).le.trans hmax.ge
    · cases c <;> trivial
    · intro d
      show (s.setMax value c).cur d + s.total d + _ = s.cur d + (s.setMax value c).total d + _
      rw [cur_setMax, total_setMax]
      cases c <;> cases d <;> rfl
  · cases hs
    refine ⟨_, ht, rfl, fun d => ?_, le_rfl, fun d => ?_⟩
    · refine .none rfl rfl rfl rfl ?_
      cases c <;> cases d <;> exact id
    · cases d <;> rfl
  · cases hs
    refine ⟨_, ht, rfl, ?_, ?_, fun d => ?_⟩
    · exact effect_returned (fun _ => rfl) (fun _ => rfl) (fun _ _ => rfl) le_rfl (.inl rfl)
        ((not_lt.mp hlt).trans hl)
    · cases c <;> trivial
    · cases c <;> cases d <;> rfl

theorem move_next {t : Nat} {spurious : Bool} (h : Inv s) (hf : Fits s (.step t spurious))
    (ht : s.threads[t]? = some pc) (hs : next s t spurious pc = some s') :
    ∃ pc', Move (.step t spurious) s s' t pc pc' := by
  have hl : pc.Loaded s := h.loaded pc (List.mem_of_getElem? ht)
  cases pc with
  | idle => cases hs
  | cum size =>
    cases hs
    refine ⟨_, ht, rfl, fun d => ?_, trivial, fun d => ?_⟩
    · exact .none (by cases d <;> rfl) (by cases d <;> rfl) (by cases d <;> rfl) rfl
        (by cases d <;> exact id)
    · cases d <;> rfl
  | fetchAdd size =>
    have hfit : s.cur .bytes + size < 2 ^ 63 := by
      simp only [Fits, ht] at hf
      exact hf
    have h0 : 0 ≤ s.cur .bytes + size := Int.add_nonneg (h.nonneg .bytes) (Int.natCast_nonneg size)
    rw [next, add_eq h0 hfit] at hs
    cases hs
    refine ⟨_, ht, rfl, ?_, trivial, ?_⟩
    · rintro (_ | _)
      · exact .none rfl rfl rfl rfl id
      · exact .raise size rfl rfl rfl rfl rfl rfl hfit
    · rintro (_ | _)
      · rfl
      · show s.mCurrBytesAllocated + size + s.total .bytes + (0 : Nat) =
          s.mCurrBytesAllocated + s.total .bytes + (size : Nat)
        omega
  | read c size =>
    cases hs
    refine ⟨_, ht, rfl, fun d => ?_, trivial, fun d => ?_⟩
    · by_cases hd : c = d
      · have hread : (Pc.load c size (s.cur c)).value d = some (s.cur d) := hd ▸ if_pos rfl
        exact .update rfl rfl le_rfl (.inl rfl) nofun
          (fun v hv => .inr (Option.some.inj (hv.symm.trans hread))) fun _ => .inr hread
      · refine .none rfl rfl rfl (if_neg hd) ?_
        cases c <;> cases d <;> first | exact id | exact absurd rfl hd
    · cases d <;> rfl
  | load c size value =>
    cases hs
    refine ⟨_, ht, rfl, fun d => ?_, le_rfl, fun d => ?_⟩
    · refine .none rfl rfl rfl rfl ?_
      cases c <;> cases d <;> exact id
    · cases d <;> rfl
  | loop c size value prevMaxValue => exact move_loop ht hl hs
  | allocate size =>
    cases hs
    refine ⟨_, ht, rfl, fun d => ?_, trivial, ?_⟩
    · exact .none (by cases d <;> rfl) (by cases d <;> rfl) (by cases d <;> rfl) rfl
        (by cases d <;> exact id)
    · rintro (_ | _)
      · show s.mCurNumAllocations + (s.live.length + s.failed.length : Nat) + (1 : Nat) =
          s.mCurNumAllocations + ((size :: s.live).length + s.failed.length : Nat) + (0 : Nat)
        rw [List.length_cons]
        omega
      · show s.mCurrBytesAllocated + (s.live.sum + s.failed.sum : Nat) + (size : Nat) =
          s.mCurrBytesAllocated + ((size :: s.live).sum + s.failed.sum : Nat) + (0 : Nat)
        rw [List.sum_cons]
        omega
  | fetchSub size =>
    rw [next, h.sub_bytes ht] at hs
    cases hs
    refine ⟨_, ht, rfl, ?_, trivial, ?_⟩
    · rintro (_ | _)
      · exact .none rfl rfl rfl rfl id
      · refine .lower size rfl rfl rfl rfl rfl rfl ?_
        show s.threads[t]?.elim 0 Pc.freed = 0 ∨ _ ↔ _
        rw [ht]
        exact Iff.rfl
    · rintro (_ | _)
      · rfl
      · show s.mCurrBytesAllocated + -size + s.total .bytes + (size : Nat) =
          s.mCurrBytesAllocated + s.total .bytes + (0 : Nat)
        omega
  | deallocate =>
    cases hs
    refine ⟨_, ht, rfl, fun d => ?_, trivial, fun d => ?_⟩
    · refine .none rfl rfl rfl rfl ?_
      cases d <;> exact id
    · cases d <;> rfl

/-- A request fails: it stays counted. -/
theorem move_fail {t : Nat} (hs : step s (.fail t) = some s') :
    ∃ pc, Move (.fail t) s s' t pc .idle := by
  simp only [step] at hs
  split at hs
  · rename_i size ht
    cases hs
    refine ⟨_, ht, rfl, fun d => ?_, trivial, ?_⟩
    · exact .none (by cases d <;> rfl) (by cases d <;> rfl) (by cases d <;> rfl) rfl
        (by cases d <;> exact id)
    · rintro (_ | _)
      · show s.mCurNumAllocations + (s.live.length + s.failed.length : Nat) + (1 : Nat) =
          s.mCurNumAllocations + (s.live.length + (size :: s.failed).length : Nat) + (0 : Nat)
        rw [List.length_cons]
        omega
      · show s.mCurrBytesAllocated + (s.live.sum + s.failed.sum : Nat) + (size : Nat) =
          s.mCurrBytesAllocated + (s.live.sum + (size :: s.failed).sum : Nat) + (0 : Nat)
        rw [List.sum_cons]
        omega
  · cases hs

/-- Every step is a move of one thread. -/
theorem move_of_step (h : Inv s) (hf : Fits s l) (hs : step s l = some s') :
    ∃ t pc pc', Move l s s' t pc pc' := by
  cases l with
  | allocateBytes t size => exact ⟨t, _, _, move_allocateBytes h hf hs⟩
  | deallocateBytes t k =>
    obtain ⟨size, hm⟩ := move_deallocateBytes h hs
    exact ⟨t, _, _, hm⟩
  | step t spurious =>
    obtain ⟨pc, ht, hs⟩ := Option.bind_eq_some_iff.mp hs
    obtain ⟨pc', hm⟩ := move_next h hf ht hs
    exact ⟨t, pc, pc', hm⟩
  | fail t =>
    obtain ⟨pc, hm⟩ := move_fail hs
    exact ⟨t, _, _, hm⟩

/-! ## All runs -/

theorem Effect.max_le (h : Effect c l s s' pc pc') : s.max c ≤ s'.max c := by
  cases h with
  | raise _ _ _ hmax | lower _ _ _ hmax => exact hmax.ge
  | update _ _ hmax => exact hmax

theorem inv_init (n : Nat) : Inv (init n) where
  loaded pc hpc := by
    rw [List.eq_of_mem_replicate hpc]
    trivial
  total c := by
    show (init n).cur c = _
    have hsum : ((List.replicate n Pc.idle).map (Pc.holds c)).sum = 0 := by
      rw [List.map_replicate, List.sum_replicate]
      cases c <;> rfl
    rw [show (init n).threads = List.replicate n Pc.idle from rfl, hsum]
    cases c <;> rfl
  cur_le c := by cases c <;> rfl
  range c := by cases c <;> exact Int.pow_pos (by decide)

theorem Inv.move (h : Inv s) {t : Nat} (hm : Move l s s' t pc pc') : Inv s' where
  loaded q hq := by
    rw [hm.threads] at hq
    rcases List.mem_or_eq_of_mem_set hq with hq | rfl
    · have hold := h.loaded q hq
      cases q with
      | loop d size value prevMaxValue => exact hold.trans (hm.effect d).max_le
      | _ => trivial
    · exact hm.loaded
  total d := by
    have htotal := hm.total d
    have hsum := sum_set (w := Pc.holds d) (y := pc') hm.at_pc
    have hold := h.total d
    rw [hm.threads]
    omega
  cur_le d := by
    cases hm.effect d with
    | raise _ _ hpeak | lower _ _ hpeak => exact hpeak.ge.trans' (le_max_right ..)
    | update hcur hpeak =>
      rw [hcur, hpeak]
      exact h.cur_le d
  range d := by
    have hold := h.range d
    cases hm.effect d with
    | raise _ _ _ _ _ _ _ hfit => exact hfit
    | lower _ hcur => omega
    | update hcur => exact hcur.trans_lt hold

theorem Inv.step (h : Inv s) (hf : Fits s l) (hs : ProfiledAllocator.step s l = some s') :
    Inv s' := by
  obtain ⟨t, pc, pc', hm⟩ := move_of_step h hf hs
  exact h.move hm

theorem inv_reach {n : Nat} (hs : (sys n).Reach Fits s) : Inv s :=
  hs.invariant (by rintro _ rfl; exact inv_init n) fun _ _ _ h hf hn => h.step hf hn

/-! ## The maxima -/

/-- The peak of the counter is recorded, or will be. -/
def Tracked (c : Counter) (s : St) : Prop :=
  Tracks (s.cur c) (s.max c) (s.peak c) (s.isDue c) (s.hasRead c)

theorem Move.hasRead {t : Nat} (hm : Move l s s' t pc pc') {v : Int} (h : s.hasRead c v) :
    s'.hasRead c v ∨ pc.value c = some v := by
  rw [St.hasRead, hm.threads]
  exact exists_set hm.at_pc h

theorem Move.of_hasRead {t : Nat} (hm : Move l s s' t pc pc') {v : Int} (h : s'.hasRead c v) :
    s.hasRead c v ∨ pc'.value c = some v := by
  rw [St.hasRead, hm.threads] at h
  exact exists_of_set h

theorem Move.hasRead_iff {t : Nat} (hm : Move l s s' t pc pc') (hpc : pc.value c = none)
    (hpc' : pc'.value c = none) (v : Int) : s'.hasRead c v ↔ s.hasRead c v := by
  constructor
  · intro h
    exact (hm.of_hasRead h).resolve_right fun he => nomatch hpc'.symm.trans he
  · intro h
    exact (hm.hasRead h).resolve_right fun he => nomatch hpc.symm.trans he

theorem Move.isDue {t : Nat} (hm : Move l s s' t pc pc') (h : s.isDue c) :
    s'.isDue c ∨ pc.due c = true := by
  rw [St.isDue, hm.threads]
  exact exists_set hm.at_pc h

theorem Move.due_self {t : Nat} (hm : Move l s s' t pc pc') (h : pc'.due c = true) : s'.isDue c := by
  rw [St.isDue, hm.threads]
  exact exists_set_self hm.at_pc h

theorem Move.read_self {t : Nat} (hm : Move l s s' t pc pc') {v : Int} (h : pc'.value c = some v) :
    s'.hasRead c v := by
  rw [St.hasRead, hm.threads]
  exact exists_set_self hm.at_pc h

theorem Tracked.move (h : Tracked c s) {t : Nat} (hm : Move l s s' t pc pc') (hok : Recorded s l) :
    Tracked c s' := by
  rw [Tracked]
  cases hm.effect c with
  | raise d hcur hpeak hmax hdue hpc hpc' =>
    rw [hpeak, hmax]
    exact Tracks.raise h (by omega) (hm.due_self hdue) (hm.hasRead_iff hpc hpc')
  | lower d hcur hpeak hmax hdue hpc hpc' hrec =>
    rw [hpeak, hmax]
    refine Tracks.lower h (by omega) ?_ ?_ (hm.hasRead_iff hpc hpc')
    · rcases hrec.mp hok with h0 | hseen
      · exact .inl (by omega)
      · exact .inr (recorded_iff.mp hseen)
    · intro hd
      exact (hm.isDue hd).resolve_right fun he => Bool.false_ne_true (hdue.symm.trans he)
  | update hcur hpeak hmax hto hkeep hnew hdue =>
    rw [hcur, hpeak]
    refine Tracks.update h hmax ?_ ?_ ?_ ?_
    · exact hto.imp_right fun hv => ⟨pc, List.mem_of_getElem? hm.at_pc, hv⟩
    · intro v hv
      rcases hm.hasRead hv with hv | hv
      · exact .inl hv
      · exact (hkeep v hv).imp_left hm.read_self
    · intro v hv
      rcases hm.of_hasRead hv with hv | hv
      · exact .inl hv
      · exact (hnew v hv).imp_left fun he => ⟨pc, List.mem_of_getElem? hm.at_pc, he⟩
    · intro hd
      rcases hm.isDue hd with hd | hd
      · exact .inl hd
      · exact (hdue hd).imp hm.due_self hm.read_self

theorem tracked_init (n : Nat) (c : Counter) : Tracked c (init n) := by
  have hidle : ∀ pc ∈ (init n).threads, pc = .idle := fun pc hpc => List.eq_of_mem_replicate hpc
  have hread : ∀ v, ¬ (init n).hasRead c v := by
    rintro v ⟨pc, hpc, hv⟩
    rw [hidle pc hpc] at hv
    cases hv
  have hzero : (init n).cur c = 0 ∧ (init n).max c = 0 ∧ (init n).peak c = 0 := by
    cases c <;> exact ⟨rfl, rfl, rfl⟩
  rw [Tracked, hzero.1, hzero.2.1, hzero.2.2]
  exact ⟨le_rfl, le_rfl, fun v hv => absurd hv (hread v), .inl (.inl le_rfl)⟩

theorem tracked_reach {n : Nat} (hs : (sys n).Reach (fun s l => Fits s l ∧ Recorded s l) s)
    (c : Counter) : Tracked c s := by
  refine hs.invariant_of (J := Inv) (fun _ hr => inv_reach (hr.mono fun _ _ => And.left)) ?_
    fun _ _ _ hi h hok hn => ?_
  · rintro _ rfl
    exact tracked_init n c
  · obtain ⟨t, pc, pc', hm⟩ := move_of_step hi hok.1 hn
    exact h.move hm hok.2

/-- The counter was at `v`, and no thread saw it. -/
def Missed (c : Counter) (v : Int) (s : St) : Prop :=
  Misses v (s.max c) (s.peak c) (s.hasRead c)

theorem Missed.move {v : Int} (h : Missed c v s) (hlt : s.cur c < v) {t : Nat}
    (hm : Move l s s' t pc pc') : Missed c v s' := by
  cases hm.effect c with
  | raise d hcur hpeak hmax _ hpc hpc' | lower d hcur hpeak hmax _ hpc hpc' =>
    refine Misses.step h hlt (.inl hmax) (fun w hw => .inl ((hm.hasRead_iff hpc hpc' w).mp hw)) ?_
    rw [hpeak]
    exact le_max_left ..
  | update hcur hpeak hmax hto hkeep hnew hdue =>
    refine Misses.step h hlt ?_ ?_ hpeak.ge
    · exact hto.imp_right fun hv => ⟨pc, List.mem_of_getElem? hm.at_pc, hv⟩
    · intro w hw
      rcases hm.of_hasRead hw with hw | hw
      · exact .inl hw
      · exact (hnew w hw).imp_left fun he => ⟨pc, List.mem_of_getElem? hm.at_pc, he⟩

/-- A step that is not recorded lowers a counter. -/
theorem lowers_of_not_recorded (h : Inv s) (hs : step s l = some s') (hok : ¬ Recorded s l) :
    ∃ c, s'.cur c < s.cur c ∧ ¬ s.recorded c = true := by
  cases l with
  | allocateBytes t size | fail t => exact absurd trivial hok
  | deallocateBytes t k =>
    obtain ⟨-, hs⟩ := Option.ite_none_right_eq_some.mp hs
    obtain ⟨size, hk, hs⟩ := Option.map_eq_some_iff.mp hs
    rw [h.sub_num hk] at hs
    subst hs
    refine ⟨.num, ?_, hok⟩
    show s.mCurNumAllocations + -1 < s.mCurNumAllocations
    omega
  | step t spurious =>
    obtain ⟨pc, ht, hs⟩ := Option.bind_eq_some_iff.mp hs
    obtain ⟨hfreed, hrec⟩ := not_or.mp hok
    rw [ht] at hfreed
    cases pc with
    | fetchSub size =>
      rw [next, h.sub_bytes ht] at hs
      cases hs
      refine ⟨.bytes, ?_, hrec⟩
      have hpos : size ≠ 0 := hfreed
      show s.mCurrBytesAllocated + -size < s.mCurrBytesAllocated
      omega
    | _ => exact absurd rfl hfreed

theorem Inv.missed (h : Inv s) (hf : Fits s l) (hs : ProfiledAllocator.step s l = some s')
    (hok : ¬ Recorded s l) : ∃ c, s'.cur c < s.cur c ∧ Missed c (s.cur c) s' := by
  obtain ⟨c, hlt, hrec⟩ := lowers_of_not_recorded h hs hok
  obtain ⟨t, pc, pc', hm⟩ := move_of_step h hf hs
  refine ⟨c, hlt, ?_⟩
  cases hm.effect c with
  | raise d hcur => omega
  | update hcur => omega
  | lower d hcur hpeak hmax _ hpc hpc' =>
    rw [Missed, hpeak, hmax]
    refine misses_of_not_seen ((h.cur_le c).trans (le_max_left ..)) ?_ (hm.hasRead_iff hpc hpc')
    exact fun hseen => hrec (recorded_iff.mpr hseen)

/-- While the counter stays below the value that was missed, the maximum is too small. -/
theorem Missed.reach {v : Int} (h : Missed c v s) (hi : Inv s) {s'' : St}
    (hr : (ofFun s ProfiledAllocator.step).Reach (fun x l => x.cur c < v ∧ Fits x l) s'') :
    Missed c v s'' ∧ Inv s'' := by
  refine Reach.invariant (I := fun x => Missed c v x ∧ Inv x) ?_ (fun x l y hx hok hn => ?_) hr
  · rintro _ rfl
    exact ⟨h, hi⟩
  · obtain ⟨t, pc, pc', hm⟩ := move_of_step hx.2 hok.2 hn
    exact ⟨hx.1.move hok.1 hm, hx.2.move hm⟩

/-! ## The counters and the maxima -/

/-- No call is in progress. -/
def St.Quiet (s : St) : Prop := ∀ pc ∈ s.threads, pc = .idle

/-- The counters are right: the number of the live buffers, and their size. -/
structure Counted (s : St) : Prop where
  num : s.mCurNumAllocations = s.live.length
  bytes : s.mCurrBytesAllocated = s.live.sum

/-- The maxima are the largest values that the counters have had. -/
structure Peaks (s : St) : Prop where
  num : s.mMaxNumAllocations = s.peakNum
  bytes : s.mMaxBytesAllocated = s.peakBytes

theorem Inv.counted_iff (h : Inv s) (hq : s.Quiet) : Counted s ↔ s.failed = [] := by
  have hzero : ∀ c, (s.threads.map (Pc.holds c)).sum = 0 := by
    intro c
    refine List.sum_eq_zero fun n hn => ?_
    obtain ⟨pc, hpc, rfl⟩ := List.mem_map.mp hn
    rw [hq pc hpc]
    cases c <;> rfl
  have hnum : s.mCurNumAllocations = (s.live.length + s.failed.length : Nat) +
    ((s.threads.map (Pc.holds .num)).sum : Nat) := h.total .num
  have hbytes : s.mCurrBytesAllocated = (s.live.sum + s.failed.sum : Nat) +
    ((s.threads.map (Pc.holds .bytes)).sum : Nat) := h.total .bytes
  rw [hzero] at hnum hbytes
  constructor
  · intro hc
    have := hc.num
    exact List.length_eq_zero_iff.mp (by omega)
  · intro he
    rw [he, List.length_nil] at hnum
    rw [he, List.sum_nil] at hbytes
    exact ⟨by omega, by omega⟩

theorem failed_add (s : St) (d : Int) (c : Counter) : (s.add d c).failed = s.failed := by
  cases c <;> rfl

theorem failed_setMax (s : St) (value : Int) (c : Counter) :
    (s.setMax value c).failed = s.failed := by
  cases c <;> rfl

theorem failed_next {t : Nat} {spurious : Bool} (hs : next s t spurious pc = some s') :
    s'.failed = s.failed := by
  cases pc with
  | idle => cases hs
  | loop c size value prevMaxValue =>
    rw [next] at hs
    split_ifs at hs
    · cases hs
      exact failed_setMax s value c
    · cases hs
      rfl
    · cases hs
      rfl
  | fetchAdd size =>
    cases hs
    exact failed_add s size .bytes
  | fetchSub size =>
    cases hs
    exact failed_add s (-size) .bytes
  | _ =>
    cases hs
    rfl

/-- No request has failed. -/
theorem failed_reach {n : Nat} {ok : St → Label → Prop} (hok : ∀ s l, ok s l → NoFail l)
    (hs : (sys n).Reach ok s) : s.failed = [] := by
  refine hs.invariant (I := fun s => s.failed = []) (by rintro _ rfl; rfl) ?_
  intro s l s' h hl hs
  refine Eq.trans ?_ h
  cases l with
  | allocateBytes t size =>
    obtain ⟨-, hs⟩ := Option.ite_none_right_eq_some.mp hs
    cases hs
    exact failed_add s 1 .num
  | deallocateBytes t k =>
    obtain ⟨-, hs⟩ := Option.ite_none_right_eq_some.mp hs
    obtain ⟨size, -, rfl⟩ := Option.map_eq_some_iff.mp hs
    exact failed_add s (-1) .num
  | step t spurious =>
    obtain ⟨pc, -, hs⟩ := Option.bind_eq_some_iff.mp hs
    exact failed_next hs
  | fail t => exact (hok _ _ hl).elim

theorem Tracked.settled (h : Tracked c s) (hq : s.Quiet) : s.max c = s.peak c := by
  refine Tracks.settled h ?_ ?_
  · rintro ⟨pc, hpc, hdue⟩
    rw [hq pc hpc] at hdue
    cases c <;> cases hdue
  · rintro v ⟨pc, hpc, hv⟩
    rw [hq pc hpc] at hv
    cases hv

/-- What a step has to meet. -/
structure Proper (s : St) (l : Label) : Prop where
  fits : Fits s l
  noFail : NoFail l
  recorded : Recorded s l

instance (s : St) (l : Label) : Decidable (Proper s l) :=
  decidable_of_iff (Fits s l ∧ NoFail l ∧ Recorded s l)
    ⟨fun h => ⟨h.1, h.2.1, h.2.2⟩, fun h => ⟨h.fits, h.noFail, h.recorded⟩⟩

/-- When no call is in progress the counters and the maxima are right, in the runs whose steps are
proper. In a run of counters that do not wrap around, the counters are right exactly if no request
failed, and the maxima if no counter was lowered from a value that was not recorded. A value that is
lost so is missing in the maximum until the counter is there again. -/
theorem profile_correct (n : Nat) :
    (∀ s, (sys n).Reach Proper s → s.Quiet → Counted s ∧ Peaks s) ∧
    (∀ s, (sys n).Reach Fits s → s.Quiet → (Counted s ↔ s.failed = [])) ∧
    (∀ s, (sys n).Reach (fun s l => Fits s l ∧ Recorded s l) s → s.Quiet → Peaks s) ∧
    ∀ s l s', (sys n).Reach Fits s → Fits s l → step s l = some s' → ¬ Recorded s l →
      ∃ c, s'.cur c < s.cur c ∧
        ∀ s'', (ofFun s' step).Reach (fun x l => x.cur c < s.cur c ∧ Fits x l) s'' →
          s''.max c < s''.peak c := by
  have hpeaks : ∀ s, (sys n).Reach (fun s l => Fits s l ∧ Recorded s l) s → s.Quiet → Peaks s :=
    fun s hr hq => ⟨(tracked_reach hr .num).settled hq, (tracked_reach hr .bytes).settled hq⟩
  refine ⟨fun s hr hq => ⟨?_, ?_⟩, fun s hr hq => (inv_reach hr).counted_iff hq, hpeaks,
    fun s l s' hr hf hs hok => ?_⟩
  · have hinv : Inv s := inv_reach (hr.mono fun _ _ h => h.fits)
    exact (hinv.counted_iff hq).mpr (failed_reach (fun _ _ h => h.noFail) hr)
  · exact hpeaks s (hr.mono fun _ _ h => ⟨h.fits, h.recorded⟩) hq
  · obtain ⟨c, hlt, hm⟩ := (inv_reach hr).missed hf hs hok
    refine ⟨c, hlt, fun s'' hr'' => ?_⟩
    exact (hm.reach ((inv_reach hr).step hf hs) hr'').1.mark_lt_peak

/-- Thread 0 allocates 8 bytes and frees them. -/
def alone : List Label :=
  .allocateBytes 0 8 :: List.replicate 9 (.step 0 false) ++ [.deallocateBytes 0 0] ++
    List.replicate 2 (.step 0 false)

theorem profile_correct_alone :
    ∃ s, s.mMaxNumAllocations = 1 ∧ s.mMaxBytesAllocated = 8 ∧ Counted s ∧ Peaks s := by
  have hr : ∀ s, runLabels (guarded step Proper) (init 2) alone = some s → s.Quiet →
      Counted s ∧ Peaks s := fun s hs hq =>
    (profile_correct 2).1 s (reach_guarded (.init rfl) _ hs) hq
  have hq : St.Quiet ⟨0, 1, 1, 0, 8, [.idle, .idle], [], [], 1, 8⟩ := by
    unfold St.Quiet
    decide
  exact ⟨⟨0, 1, 1, 0, 8, [.idle, .idle], [], [], 1, 8⟩, rfl, rfl, hr _ (by decide) hq⟩

/-- Thread 1 frees its buffer after the increments of thread 0, before thread 0 reads the counters. -/
def early : List Label :=
  .allocateBytes 1 8 :: List.replicate 9 (.step 1 false) ++ .allocateBytes 0 8 ::
    List.replicate 2 (.step 0 false) ++ .deallocateBytes 1 0 :: List.replicate 2 (.step 1 false) ++
    List.replicate 7 (.step 0 false)

/-- Two buffers were counted at one time, and the recorded maximum is one. -/
theorem not_profile_correct :
    ¬ ∀ s, (sys 2).Reach Any s → s.Quiet → Counted s ∧ Peaks s := by
  intro h
  have hr : ∀ s, runLabels step (init 2) early = some s → s.Quiet → s.mMaxNumAllocations = s.peakNum :=
    fun s hs hq =>
      (h s (reach_runLabels (fun _ => True) (.init rfl) _ (fun _ _ => trivial) hs) hq).2.num
  have hq : St.Quiet ⟨1, 1, 2, 8, 8, [.idle, .idle], [8], [], 2, 16⟩ := by
    unfold St.Quiet
    decide
  exact absurd (hr _ (by decide) hq) (by decide)

end Moves

end ProfiledAllocator

end AsyncLib
