import AsyncLib.Concurrent.TaskDequeInv

/-!
# `TaskDeque::Empty`

`Empty` loads `mFront`, `mBack` and `mFront` again, and answers from the two words when both loads
of `mFront` agree. If `mFront` was not stored in between, both indices are from one instant, and
when they meet no slot is ready. `mFront` can also be stored and come back to the same word:
`PushFront` counts in the upper 21 bits, but `PopFront` does not.

* `Drift`: what the stores since the first load have done to `mFront`.
* `empty_sound`: a deque is reported empty only if no task waited at some instant of the call,
  unless `2^21` pushes or more than 512 pops have stored `mFront` during the call.
* `not_empty_sound`: 2048 rounds of `PushBack` and `PopFront` during the call, and no `PushFront`:
  the deque is reported empty although a task waits at every instant.
-/

namespace AsyncLib

namespace TaskDeque

namespace Threads

open Sys

variable {τ : Type}

variable {s s' : St τ} {t : Tid} {v : View τ}

/-- No task waited at some instant from `since` on. -/
def Log.Idle (g : Log τ) (since : Nat) : Prop := ∃ i, since ≤ i ∧ g.waits[i]? = some false

/-- `mFront` was `front` once since `g`; since then `PushFront` has stored it `m` times and
`PopFront` `r` times, `c` of these across the end of the index field. -/
def Drift (s : St τ) (g : Since) (front : Word) (m r : Nat) : Prop :=
  g.ups + m ≤ s.log.ups ∧ g.downs + r ≤ s.log.downs ∧ ∃ c q : Int, 0 ≤ c ∧ c ≤ r ∧
    (s.d.mFront.toNat : Int) = front.toNat + 2049 * m - r + 2048 * c + 2 ^ 32 * q

/-- What is known of a thread in `SizeOrNotEmpty`. -/
def ProbeOk (s : St τ) : Pc τ → Prop
  | .sizeFront _ g => g.time < s.log.waits.length ∧ g.ups ≤ s.log.ups ∧ g.downs ≤ s.log.downs
  | .sizeBack _ g front => g.time < s.log.waits.length ∧ ∃ m r, Drift s g front m r
  | .sizeFront1 _ g front back => g.time < s.log.waits.length ∧ ∃ m r, Drift s g front m r ∧
    (m = 0 → r = 0 → (front ^^^ back) &&& kMask2 = 0 → s.log.Idle g.time)
  | _ => True

/-- A deque is reported empty only if no task waited at some instant of the call, unless too many
front operations have moved `mFront` during the call. -/
def AnswersOk (g : Log τ) : Prop :=
  ∀ a ∈ g.answers, a.empty = true → a.till.ups - a.since.ups < 2 ^ 21 →
    a.till.downs - a.since.downs ≤ 512 →
    ∃ i, a.since.time ≤ i ∧ i ≤ a.till.time ∧ g.waits[i]? = some false

/-- What a step does to `mFront`, and to its record. -/
def FrontMove (s s' : St τ) : Prop :=
  (s'.d.mFront = s.d.mFront ∧ s'.log.ups = s.log.ups ∧ s'.log.downs = s.log.downs) ∨
  (s'.d.mFront = s.d.mFront + kIncrement ∧ s'.log.ups = s.log.ups + 1 ∧
    s'.log.downs = s.log.downs) ∨
  (s'.d.mFront = dec s.d.mFront ∧ s'.log.ups = s.log.ups ∧ s'.log.downs = s.log.downs + 1)

theorem FrontMove.drift (h : FrontMove s s') {g : Since} {front : Word} {m r : Nat}
    (hd : Drift s g front m r) :
    ∃ m' r', Drift s' g front m' r' ∧ (m' = 0 → m = 0) ∧ (r' = 0 → r = 0) := by
  obtain ⟨h1, h2, c, q, hc, hcr, he⟩ := hd
  rcases h with ⟨hf, hu, hd⟩ | ⟨hf, hu, hd⟩ | ⟨hf, hu, hd⟩
  · exact ⟨m, r, ⟨by omega, by omega, c, q, hc, hcr, by rw [hf]; exact he⟩, id, id⟩
  · have hk : kIncrement.toNat = 2049 := by decide
    refine ⟨m + 1, r, ⟨by omega, by omega, c, ?_⟩, by omega, id⟩
    rw [hf, BitVec.toNat_add, hk]
    refine ⟨((s.d.mFront.toNat + 2049) % 2 ^ 32 - (s.d.mFront.toNat + 2049) : Int) / 2 ^ 32 + q,
      hc, hcr, ?_⟩
    omega
  · have hlt := s.d.mFront.isLt
    by_cases h0 : s.d.mFront.toNat % 2048 = 0
    · refine ⟨m, r + 1, ⟨by omega, by omega, c + 1, q, by omega, by omega, ?_⟩, id, by omega⟩
      rw [hf, toNat_dec]
      omega
    · refine ⟨m, r + 1, ⟨by omega, by omega, c, q, by omega, by omega, ?_⟩, id, by omega⟩
      rw [hf, toNat_dec]
      omega

theorem FrontMove.mono (h : FrontMove s s') :
    s.log.ups ≤ s'.log.ups ∧ s.log.downs ≤ s'.log.downs := by
  rcases h with ⟨-, hu, hd⟩ | ⟨-, hu, hd⟩ | ⟨-, hu, hd⟩ <;> omega

/-- A thread that does not move keeps what is known of it. -/
theorem ProbeOk.frame {pc : Pc τ} (h : ProbeOk s pc) (hf : FrontMove s s') {w : Bool}
    (hw : s'.log.waits = s.log.waits ++ [w]) : ProbeOk s' pc := by
  have hlen : s.log.waits.length ≤ s'.log.waits.length := by
    rw [hw, List.length_append]
    omega
  obtain ⟨hu, hd⟩ := hf.mono
  unfold ProbeOk at h ⊢
  split at h
  · exact ⟨by omega, by omega, by omega⟩
  · obtain ⟨ht, m, r, hdr⟩ := h
    obtain ⟨m', r', hdr', -, -⟩ := hf.drift hdr
    exact ⟨by omega, m', r', hdr'⟩
  · obtain ⟨ht, m, r, hdr, hidle⟩ := h
    obtain ⟨m', r', hdr', hm, hr⟩ := hf.drift hdr
    refine ⟨by omega, m', r', hdr', fun hm0 hr0 he => ?_⟩
    obtain ⟨i, hi, hwi⟩ := hidle (hm hm0) (hr hr0) he
    refine ⟨i, hi, ?_⟩
    rw [hw, List.getElem?_append_left (List.getElem?_eq_some_iff.mp hwi).1]
    exact hwi
  · trivial

/-- No slot is ready when the two indices meet. -/
theorem Inv.not_ready (h : Inv s v) (he : (s.d.mFront ^^^ s.d.mBack) &&& kMask2 = 0)
    (i : Fin kCapacity) : (s.d.mArray i).state ≠ .kReady := by
  obtain ⟨B, hB, hB1, hB2, hB3⟩ := h.back.index
  have hB1 : v.b - 512 ≤ B := hB1.elim (by omega) fun ⟨_, _, h⟩ => h
  obtain ⟨F, hF, hF1, hF2⟩ := h.front.index
  have hle := h.ring.le
  rw [← View.hi_eq] at hF2
  have hlo : B ≤ v.lo := hB2
  have hlohi : v.lo ≤ v.hi := by unfold View.hi; omega
  obtain ⟨n, rfl⟩ : ∃ n : Nat, F = B + n := ⟨(F - B).toNat, by omega⟩
  have hn : n < 2048 := by
    unfold View.top at hF1
    unfold kCapacity at hle
    omega
  have hn0 : n = 0 := (maybeZero_of_at hF hB hn).mp he
  subst hn0
  intro hi
  rcases h.mem_of_ready hi with ⟨j, hj, hr, -⟩ | ⟨p, h1, h2, -⟩
  · exact hB3 (by unfold View.lo at *; omega) _ (List.getElem_mem _) hr
  · omega

/-- All threads in `SizeOrNotEmpty` and all answers of `Empty`. -/
structure Probed (s : St τ) : Prop where
  probes : ∀ t, ProbeOk s (s.pc t)
  answers : AnswersOk s.log

/-- Thread `t` has moved, and given no answer. -/
theorem Probed.moved (h : Probed s) {pc : Pc τ} (hpc : s'.pc = Function.update s.pc t pc)
    (hf : FrontMove s s') {w : Bool} (hw : s'.log.waits = s.log.waits ++ [w])
    (hans : s'.log.answers = s.log.answers) (hok : ProbeOk s' pc) : Probed s' := by
  refine ⟨fun u => ?_, fun a ha he h1 h2 => ?_⟩
  · rw [hpc]
    by_cases hu : u = t
    · rw [hu, Function.update_self]
      exact hok
    · rw [Function.update_of_ne hu]
      exact (h.probes u).frame hf hw
  · rw [hans] at ha
    obtain ⟨i, hi1, hi2, hi⟩ := h.answers a ha he h1 h2
    refine ⟨i, hi1, hi2, ?_⟩
    rw [hw, List.getElem?_append_left (List.getElem?_eq_some_iff.mp hi).1]
    exact hi

/-- Thread `t` has answered. -/
theorem Probed.answered (h : Probed s) {pc : Pc τ} (hpc : s'.pc = Function.update s.pc t pc)
    (hf : FrontMove s s') {w : Bool} (hw : s'.log.waits = s.log.waits ++ [w]) {a : Answer}
    (hans : s'.log.answers = s.log.answers ++ [a]) (hok : ProbeOk s' pc)
    (ha : a.empty = true → a.till.ups - a.since.ups < 2 ^ 21 → a.till.downs - a.since.downs ≤ 512 →
      a.till.time = s.log.waits.length ∧ s.log.Idle a.since.time) : Probed s' := by
  have hkeep : ∀ {i x}, s.log.waits[i]? = some x → s'.log.waits[i]? = some x := fun {i x} hi => by
    rw [hw, List.getElem?_append_left (List.getElem?_eq_some_iff.mp hi).1]
    exact hi
  refine ⟨fun u => ?_, fun b hb he h1 h2 => ?_⟩
  · rw [hpc]
    by_cases hu : u = t
    · rw [hu, Function.update_self]
      exact hok
    · rw [Function.update_of_ne hu]
      exact (h.probes u).frame hf hw
  · rw [hans, List.mem_append, List.mem_singleton] at hb
    rcases hb with hb | rfl
    · obtain ⟨i, hi1, hi2, hi⟩ := h.answers b hb he h1 h2
      exact ⟨i, hi1, hi2, hkeep hi⟩
    · obtain ⟨ht, i, hi1, hi⟩ := ha he h1 h2
      have hlt := (List.getElem?_eq_some_iff.mp hi).1
      exact ⟨i, hi1, by omega, hkeep hi⟩

/-- Fewer than `2^21` pushes and at most 512 pops that bring `mFront` back to the same word are
none. -/
theorem Drift.eq_zero {g : Since} {m r : Nat} (h : Drift s g s.d.mFront m r)
    (hm : m < 2 ^ 21) (hr : r ≤ 512) : m = 0 ∧ r = 0 := by
  obtain ⟨-, -, c, q, hc, hcr, he⟩ := h
  -- modulo `2^11` the pushes and pops cancel, and the rest is less than one lap of the counter
  obtain ⟨k, rfl⟩ : ∃ k : Nat, m = 2048 * k + r := ⟨(m - r) / 2048, by omega⟩
  have hk : k ≤ 1023 := by omega
  have hsum : 2049 * (k : Int) + r + c + 2 ^ 21 * q = 0 := by omega
  have hq : q = 0 := by omega
  omega

theorem ProbeOk.leave (s : St τ) (e : End) : ProbeOk s (e.leave : Pc τ) := by
  cases e <;> trivial

theorem ProbeOk.half_next (s : St τ) (l : Half τ) : ProbeOk s l.next := by
  unfold Half.next
  split_ifs <;> trivial

/-- `SizeOrNotEmpty` returns. -/
theorem Probed.ret (h : Probed s) {k : Probe} {g : Since} {front back : Word}
    (hp : s.pc t = .sizeFront1 k g front back) (he : s.d.mFront = front) :
    Probed (k.ret s t g front back).tick := by
  have hpr := h.probes t
  rw [hp] at hpr
  obtain ⟨-, m, r, hd, hidle⟩ := hpr
  subst he
  have hstay : ∀ {s' : St τ}, s'.d = s.d → s'.log.ups = s.log.ups → s'.log.downs = s.log.downs →
      FrontMove s s' := fun h1 h2 h3 => .inl ⟨by rw [h1], h2, h3⟩
  have hans : decide ((s.d.mFront ^^^ back) &&& kMask2 = 0) = true →
      s.log.ups - g.ups < 2 ^ 21 → s.log.downs - g.downs ≤ 512 →
      s.log.waits.length = s.log.waits.length ∧ s.log.Idle g.time := fun hz h1 h2 => by
    obtain ⟨hm, hr⟩ := hd.eq_zero (by have := hd.1; omega) (by have := hd.2.1; omega)
    exact ⟨rfl, hidle hm hr (of_decide_eq_true hz)⟩
  cases k with
  | half w => exact h.moved rfl (hstay rfl rfl rfl) rfl rfl (ProbeOk.half_next _ _)
  | size => exact h.moved rfl (hstay rfl rfl rfl) rfl rfl trivial
  | empty => exact h.answered rfl (hstay rfl rfl rfl) rfl rfl trivial hans
  | popBack =>
    simp only [Probe.ret]
    refine h.answered rfl (hstay rfl rfl rfl) rfl rfl ?_ hans
    split <;> trivial
  | popBackHalf =>
    simp only [Probe.ret]
    refine h.answered rfl (hstay rfl rfl rfl) rfl rfl ?_ hans
    split <;> trivial

/-- A step of one thread keeps what is known of the probes. -/
theorem Probed.move {leave : τ → τ} (h : Probed s) (hI : Inv s v)
    (hmv : Threads.move leave s t = some s') : Probed s'.tick := by
  have hpr := h.probes t
  cases hp : s.pc t
  case idle => simp [Threads.move, hp] at hmv
  case sizeFront k g =>
    simp only [Threads.move, hp, Option.some.injEq] at hmv
    subst hmv
    rw [hp] at hpr
    refine h.moved rfl (.inl ⟨rfl, rfl, rfl⟩) rfl rfl ⟨?_, 0, 0, hpr.2.1, hpr.2.2, 0, 0,
      by simp [St.tick, St.goto]⟩
    exact Nat.lt_of_lt_of_le hpr.1 (by simp [St.tick, St.goto])
  case sizeBack k g front =>
    simp only [Threads.move, hp, Option.some.injEq] at hmv
    subst hmv
    rw [hp] at hpr
    obtain ⟨ht, m, r, hd⟩ := hpr
    refine h.moved rfl (.inl ⟨rfl, rfl, rfl⟩) rfl rfl
      ⟨Nat.lt_of_lt_of_le ht (by simp [St.tick, St.goto]), m, r, hd, fun hm hr he => ?_⟩
    -- `mFront` still is the word that was loaded: both indices are from this instant
    have hfront : s.d.mFront = front := by
      obtain ⟨-, -, c, q, hc, hcr, he⟩ := hd
      have h1 := s.d.mFront.isLt
      have h2 := front.isLt
      rw [← BitVec.toNat_inj]
      omega
    rw [← hfront] at he
    have hnot : ¬ (s.goto t (.sizeFront1 k g front s.d.mBack)).Waiting := by
      rintro ⟨i, hi, -⟩
      exact hI.not_ready he i hi
    refine ⟨s.log.waits.length, Nat.le_of_lt ht, ?_⟩
    show (s.log.waits ++ [decide _])[s.log.waits.length]? = some false
    rw [List.getElem?_concat_length, decide_eq_false hnot]
  case sizeFront1 k g front back =>
    simp only [Threads.move, hp] at hmv
    split_ifs at hmv with hne
    · cases hmv
      rw [hp] at hpr
      obtain ⟨ht, m, r, hd, -⟩ := hpr
      have h1 := hd.1
      have h2 := hd.2.1
      refine h.moved rfl (.inl ⟨rfl, rfl, rfl⟩) rfl rfl ⟨Nat.lt_of_lt_of_le ht
        (by simp [St.tick, St.goto]),
        0, 0, ?_, ?_, 0, 0, by simp [St.tick, St.goto]⟩
      · show g.ups + 0 ≤ s.log.ups
        omega
      · show g.downs + 0 ≤ s.log.downs
        omega
    · cases hmv
      exact h.ret hp (Classical.not_not.mp hne).symm
  case lock c =>
    simp only [Threads.move, hp] at hmv
    split at hmv
    · cases hmv
      refine h.moved rfl (.inl ⟨rfl, rfl, rfl⟩) rfl rfl ?_
      cases c <;> trivial
    · cases hmv
  case pushIndex e task w =>
    simp only [Threads.move, hp, Option.some.injEq] at hmv
    subst hmv
    cases e with
    | front =>
      obtain ⟨rfl, -⟩ := hI.front_at hp rfl
      exact h.moved rfl (.inr (.inl ⟨rfl, rfl, rfl⟩)) rfl rfl trivial
    | back => exact h.moved rfl (.inl ⟨rfl, rfl, rfl⟩) rfl rfl trivial
  case popIndex e w task =>
    simp only [Threads.move, hp, Option.some.injEq] at hmv
    subst hmv
    cases e with
    | front =>
      obtain ⟨rfl, -⟩ := hI.front_at hp rfl
      exact h.moved rfl (.inr (.inr ⟨rfl, rfl, rfl⟩)) rfl rfl trivial
    | back => exact h.moved rfl (.inl ⟨by simp [St.tick, End.store], rfl, rfl⟩) rfl rfl trivial
  case halfLoad =>
    simp only [Threads.move, hp, Option.some.injEq] at hmv
    subst hmv
    exact h.moved rfl (.inl ⟨rfl, rfl, rfl⟩) rfl rfl
      ⟨by simp [St.tick, St.goto, Log.now], Nat.le_refl _, Nat.le_refl _⟩
  case halfIndex l =>
    simp only [Threads.move, hp, Option.some.injEq] at hmv
    subst hmv
    exact h.moved rfl (.inl ⟨by simp [St.tick], rfl, rfl⟩) rfl rfl trivial
  -- at the other control points nothing is stored to `mFront`, and no probe begins
  all_goals
    simp only [Threads.move, hp] at hmv
    try split_ifs at hmv
  all_goals
    cases hmv
    refine h.moved rfl (.inl ⟨rfl, rfl, rfl⟩) rfl rfl ?_
    first
      | trivial
      | exact ProbeOk.leave _ _
      | exact ProbeOk.half_next _ _

theorem Probed.step {leave : τ → τ} {l : Label τ} (h : Probed s) (hI : Inv s v)
    (hs : Threads.step leave s l = some s') : Probed s' := by
  obtain ⟨s₁, hact, rfl⟩ := Option.map_eq_some_iff.mp hs
  cases l with
  | move t => exact h.move hI hact
  | call t c =>
    simp only [act] at hact
    split at hact
    · obtain ⟨pc, hpc, rfl⟩ := Option.map_eq_some_iff.mp hact
      refine h.moved rfl (.inl ⟨rfl, rfl, rfl⟩) rfl rfl ?_
      have hnow : s.log.now.time < (s.goto t pc).tick.log.waits.length ∧
          s.log.now.ups ≤ (s.goto t pc).tick.log.ups ∧
          s.log.now.downs ≤ (s.goto t pc).tick.log.downs :=
        ⟨by simp [St.tick, St.goto, Log.now], Nat.le_refl _, Nat.le_refl _⟩
      cases c
      case pushFront =>
        simp only [Call.entry, Option.ite_none_right_eq_some, Option.some.injEq] at hpc
        obtain ⟨-, rfl⟩ := hpc
        trivial
      case popFront =>
        simp only [Call.entry, Option.ite_none_right_eq_some, Option.some.injEq] at hpc
        obtain ⟨-, rfl⟩ := hpc
        trivial
      case pushBack =>
        cases hpc
        trivial
      all_goals
        cases hpc
        exact hnow
    · cases hact

theorem probed_of_reach [Inhabited τ] {leave : τ → τ} (hs : (sys leave).Reach Any s) : Probed s := by
  refine hs.invariant_of (J := fun s => ∃ v, Inv s v) (fun s h => inv_of_reach h) ?_ ?_
  · rintro s rfl
    exact ⟨fun _ => trivial, fun _ h => by cases h⟩
  · rintro s l s' ⟨v, hI⟩ h - hn
    exact h.step hI hn

/-- **A deque with a waiting task is not reported empty**, as long as fewer than `2^21` `PushFront`
calls and at most 512 `PopFront` calls store `mFront` during the call of `Empty`. -/
theorem empty_sound [Inhabited τ] (leave : τ → τ) (s : St τ) (hs : (sys leave).Reach Any s)
    (a : Answer) (ha : a ∈ s.log.answers) (hempty : a.empty = true)
    (hups : a.till.ups - a.since.ups < 2 ^ 21) (hdowns : a.till.downs - a.since.downs ≤ 512) :
    ∃ i, a.since.time ≤ i ∧ i ≤ a.till.time ∧ s.log.waits[i]? = some false :=
  (probed_of_reach hs).answers a ha hempty hups hdowns

/-- Thread 3 calls `Empty`. Before its load of `mBack` thread 1 pushes a task, and after it the owner pops that
task; the second load of `mFront` differs. Then the owner pushes and pops another task, and the second
attempt of `Empty` answers. -/
def emptyLabels : List (Label Nat) :=
  [.call 3 .empty, .move 3] ++ .call 1 (.pushBack 7) :: List.replicate 8 (.move 1) ++ [.move 3] ++
    .call 0 .popFront :: List.replicate 6 (.move 0) ++ [.move 3] ++
    .call 0 (.pushFront 8) :: List.replicate 6 (.move 0) ++
    .call 0 .popFront :: List.replicate 6 (.move 0) ++ List.replicate 4 (.move 3)

/-- The state after `emptyLabels`. -/
def emptyState : St Nat := (runLabels (step id) start emptyLabels).getD start

theorem empty_sound_busy : emptyState.log.popped = [7, 8] ∧
    emptyState.log.answers = [⟨⟨1, 0, 0⟩, ⟨38, 1, 2⟩, true⟩] ∧
    ∃ i, 1 ≤ i ∧ i ≤ 38 ∧ emptyState.log.waits[i]? = some false :=
  ⟨rfl, rfl, empty_sound id emptyState
    (reach_runLabels (fun _ => True) (.init rfl) emptyLabels (fun _ _ => trivial) (by rfl))
    ⟨⟨1, 0, 0⟩, ⟨38, 1, 2⟩, true⟩ (List.mem_singleton.mpr rfl) rfl (by decide) (by decide)⟩

/-! ## A deque that is never empty, reported empty -/

variable {s s' : St Unit}

/-- No call of `PushFront`. -/
def NoPushFront (_ : St Unit) (l : Label Unit) : Prop := ∀ t, l ≠ .call t (.pushFront ())

/-- The steps of the owner and of thread 1 that lead from `s` to `s'`: a task waits after each of
them, and thread 2 does not move. -/
structure Meanwhile (s s' : St Unit) : Prop where
  reach : (sys id).Reach NoPushFront s → (sys id).Reach NoPushFront s'
  probe : s'.pc 2 = s.pc 2
  answers : s'.log.answers = s.log.answers
  waits : ∃ n, s'.log.waits = s.log.waits ++ List.replicate n true

theorem Meanwhile.trans {s₁ s₂ s₃ : St Unit} (h : Meanwhile s₁ s₂) (h' : Meanwhile s₂ s₃) :
    Meanwhile s₁ s₃ := by
  obtain ⟨n, hn⟩ := h.waits
  obtain ⟨n', hn'⟩ := h'.waits
  exact ⟨h'.reach ∘ h.reach, h'.probe.trans h.probe, h'.answers.trans h.answers,
    n + n', by rw [hn', hn, List.append_assoc, List.replicate_append_replicate]⟩

/-- The deque, the lock, the owner and thread 1. -/
structure Snap (s : St Unit) (d : TaskDeque Unit) (m : Option Tid) (p₀ p₁ : Pc Unit) : Prop where
  d : s.d = d
  mMutex : s.mMutex = m
  owner : s.pc 0 = p₀
  other : s.pc 1 = p₁

variable {d d' : TaskDeque Unit} {m m' : Option Tid} {p₀ p₁ p₀' p₁' : Pc Unit}

/-- One step of the owner or of thread 1. -/
theorem Snap.next (s₁ : St Unit) {l : Label Unit} (hact : act id s l = some s₁)
    (hl : NoPushFront s l) (h : Snap s₁ d' m' p₀' p₁') (hprobe : s₁.pc 2 = s.pc 2)
    (hanswers : s₁.log.answers = s.log.answers) (hwaits : s₁.log.waits = s.log.waits)
    {i : Fin kCapacity} (hi : (d'.mArray i).state = .kReady)
    (hclaimed : s₁.claimed = []) :
    ∃ s', Meanwhile s s' ∧ Snap s' d' m' p₀' p₁' := by
  have hw : s₁.Waiting := ⟨i, by rw [h.d]; exact hi, by rw [hclaimed]; exact List.not_mem_nil⟩
  refine ⟨s₁.tick, ⟨fun hr => .step hr hl (show (act id s l).map St.tick = _ by rw [hact]; rfl),
    hprobe, hanswers, 1, ?_⟩, h.d, h.mMutex, h.owner, h.other⟩
  show s₁.log.waits ++ [decide s₁.Waiting] = _
  rw [hwaits, decide_eq_true hw]
  rfl

/-- One step of thread 1 within an operation at the back. -/
theorem Snap.other_move (h : Snap s d m .idle p₁) (d' : TaskDeque Unit) (m' : Option Tid)
    (p₁' : Pc Unit) (g : Log Unit)
    (hact : Threads.move id s 1 = some ⟨d', m', Function.update s.pc 1 p₁', g⟩)
    (hanswers : g.answers = s.log.answers) (hwaits : g.waits = s.log.waits)
    {i : Fin kCapacity} (hi : (d'.mArray i).state = .kReady) (hclaimed : p₁'.claimed = [])
    (hm : m' = none ∨ m' = some 1) : ∃ s', Meanwhile s s' ∧ Snap s' d' m' .idle p₁' := by
  refine Snap.next _ (l := .move 1) hact nofun ⟨rfl, rfl, h.owner, rfl⟩ rfl hanswers hwaits hi ?_
  rcases hm with rfl | rfl
  · rfl
  · exact hclaimed

/-- One step of the owner, while nobody holds the lock. -/
theorem Snap.owner_move (h : Snap s d none p₀ .idle) (d' : TaskDeque Unit)
    (p₀' : Pc Unit) (g : Log Unit)
    (hact : Threads.move id s 0 = some ⟨d', none, Function.update s.pc 0 p₀', g⟩)
    (hanswers : g.answers = s.log.answers) (hwaits : g.waits = s.log.waits)
    {i : Fin kCapacity} (hi : (d'.mArray i).state = .kReady) :
    ∃ s', Meanwhile s s' ∧ Snap s' d' none p₀' .idle :=
  Snap.next _ (l := .move 0) hact nofun ⟨rfl, rfl, rfl, h.other⟩ rfl hanswers hwaits hi rfl

/-- `PushBack` by thread 1 alone, while another task waits in slot `i`. -/
theorem Snap.pushBack (h : Snap s d none .idle .idle) {i : Fin kCapacity}
    (hi : (d.mArray i).state = .kReady)
    {j : Fin kCapacity} (hj : End.back.pushSlot d.mBack = j) (he : (d.mArray j).state = .kEmpty) :
    ∃ s', Meanwhile s s' ∧ Snap s' ⟨d.mFront, dec d.mBack,
      Function.update d.mArray j ⟨.kReady, ()⟩⟩ none .idle .idle := by
  have hne : i ≠ j := by
    rintro rfl
    rw [hi] at he
    cases he
  obtain ⟨s₁, q₁, h₁⟩ : ∃ s', Meanwhile s s' ∧ Snap s' d none .idle (.lock (.pushBack ())) :=
    Snap.next (s.goto 1 (.lock (.pushBack ()))) (l := .call 1 (.pushBack ()))
      (by simp [act, h.other, Call.entry]) nofun
      ⟨h.d, h.mMutex, h.owner, rfl⟩ rfl rfl rfl hi (by simp [St.claimed, St.goto, h.mMutex])
  obtain ⟨s₂, q₂, h₂⟩ := h₁.other_move d (some 1) (.pushLoad .back ()) s₁.log
    (by simp [Threads.move, h₁.other, h₁.mMutex, h₁.d, Section.entry, St.goto]) rfl rfl hi rfl
      (.inr rfl)
  obtain ⟨s₃, q₃, h₃⟩ := h₂.other_move d (some 1) (.pushState .back () d.mBack) s₂.log
    (by simp [Threads.move, h₂.other, h₂.mMutex, h₂.d, End.index, St.goto]) rfl rfl hi rfl
      (.inr rfl)
  obtain ⟨s₄, q₄, h₄⟩ := h₃.other_move d (some 1) (.pushCas .back () d.mBack) s₃.log
    (by simp [Threads.move, h₃.other, h₃.mMutex, h₃.d, hj, St.goto, he]) rfl rfl hi rfl (.inr rfl)
  obtain ⟨s₅, q₅, h₅⟩ := h₄.other_move (write d j ⟨.kBusy, ()⟩) (some 1)
    (.pushIndex .back () d.mBack) s₄.log
    (by simp [Threads.move, h₄.other, h₄.mMutex, h₄.d, hj, St.goto, he]) rfl rfl
    (i := i) (by simp [write, hne, hi]) rfl (.inr rfl)
  obtain ⟨s₆, q₆, h₆⟩ := h₅.other_move
    ⟨d.mFront, dec d.mBack, Function.update d.mArray j ⟨.kBusy, ()⟩⟩ (some 1)
    (.pushMove .back () d.mBack) s₅.log
    (by simp [Threads.move, h₅.other, h₅.mMutex, h₅.d, End.pushed, End.store, End.countPush, write,
      St.goto]) rfl rfl
    (i := i) (by simp [hne, hi]) rfl (.inr rfl)
  obtain ⟨s₇, q₇, h₇⟩ := h₆.other_move
    ⟨d.mFront, dec d.mBack, Function.update d.mArray j ⟨.kBusy, ()⟩⟩ (some 1)
    (.pushStore .back () d.mBack) s₆.log
    (by simp [Threads.move, h₆.other, h₆.mMutex, h₆.d, hj, write, St.goto]) rfl rfl
    (i := i) (by simp [hne, hi]) rfl (.inr rfl)
  obtain ⟨s₈, q₈, h₈⟩ := h₇.other_move
    ⟨d.mFront, dec d.mBack, Function.update d.mArray j ⟨.kReady, ()⟩⟩ (some 1)
    .unlock { s₇.log with pushed := s₇.log.pushed ++ [()] }
    (by simp [Threads.move, h₇.other, h₇.mMutex, h₇.d, hj, End.leave, write, St.goto]) rfl rfl
    (i := i) (by simp [hne, hi]) rfl (.inr rfl)
  obtain ⟨s₉, q₉, h₉⟩ := h₈.other_move
    ⟨d.mFront, dec d.mBack, Function.update d.mArray j ⟨.kReady, ()⟩⟩ none
    .idle s₈.log
    (by simp [Threads.move, h₈.other, h₈.d, St.goto]) rfl rfl
    (i := i) (by simp [hne, hi]) rfl (.inl rfl)
  exact ⟨s₉, q₁.trans (q₂.trans (q₃.trans (q₄.trans (q₅.trans
    (q₆.trans (q₇.trans (q₈.trans q₉))))))), h₉⟩

/-- `PopFront` alone, while another task waits in slot `i`. -/
theorem Snap.popFront (h : Snap s d none .idle .idle) {i : Fin kCapacity}
    (hi : (d.mArray i).state = .kReady) {j : Fin kCapacity} (hj : End.front.popSlot d.mFront = j)
    (hne : i ≠ j) (he : (d.mArray j).state = .kReady) :
    ∃ s', Meanwhile s s' ∧ Snap s' ⟨dec d.mFront, d.mBack,
      Function.update d.mArray j ⟨.kEmpty, ()⟩⟩ none .idle .idle := by
  obtain ⟨s₁, q₁, h₁⟩ : ∃ s', Meanwhile s s' ∧ Snap s' d none (.popLoad .front) .idle :=
    Snap.next (s.goto 0 (.popLoad .front)) (l := .call 0 .popFront)
      (by simp [act, h.owner, Call.entry, Threads.owner]) nofun
      ⟨h.d, h.mMutex, rfl, h.other⟩ rfl rfl rfl hi (by simp [St.claimed, St.goto, h.mMutex])
  obtain ⟨s₂, q₂, h₂⟩ := h₁.owner_move d (.popState .front d.mFront) s₁.log
    (by simp [Threads.move, h₁.owner, h₁.mMutex, h₁.d, End.index, St.goto]) rfl rfl hi
  obtain ⟨s₃, q₃, h₃⟩ := h₂.owner_move d (.popCas .front d.mFront) s₂.log
    (by simp [Threads.move, h₂.owner, h₂.mMutex, h₂.d, hj, St.goto, he]) rfl rfl hi
  obtain ⟨s₄, q₄, h₄⟩ := h₃.owner_move (write d j ⟨.kBusy, ()⟩)
    (.popMove .front d.mFront) s₃.log
    (by simp [Threads.move, h₃.owner, h₃.mMutex, h₃.d, hj, St.goto, he]) rfl rfl
    (i := i) (by simp [write, hne, hi])
  obtain ⟨s₅, q₅, h₅⟩ := h₄.owner_move (write d j ⟨.kBusy, ()⟩)
    (.popStore .front d.mFront ()) s₄.log
    (by simp [Threads.move, h₄.owner, h₄.mMutex, h₄.d, hj, write, St.goto]) rfl rfl
    (i := i) (by simp [write, hne, hi])
  obtain ⟨s₆, q₆, h₆⟩ := h₅.owner_move (write d j ⟨.kEmpty, ()⟩)
    (.popIndex .front d.mFront ()) s₅.log
    (by simp [Threads.move, h₅.owner, h₅.mMutex, h₅.d, hj, write, St.goto]) rfl rfl
    (i := i) (by simp [write, hne, hi])
  obtain ⟨s₇, q₇, h₇⟩ := h₆.owner_move
    ⟨dec d.mFront, d.mBack, Function.update d.mArray j ⟨.kEmpty, ()⟩⟩
    .idle { s₆.log with downs := s₆.log.downs + 1, popped := s₆.log.popped ++ [()] }
    (by simp [Threads.move, h₆.owner, h₆.mMutex, h₆.d, End.popped, End.store, End.countPop,
      End.leave, write, St.goto]) rfl rfl
    (i := i) (by simp [hne, hi])
  exact ⟨s₇, q₁.trans (q₂.trans (q₃.trans (q₄.trans (q₅.trans (q₆.trans q₇))))), h₇⟩

/-- One task, in the slot below the front `w`. -/
def single (w : Word) : TaskDeque Unit :=
  ⟨w, dec w, Function.update (fun _ => ⟨.kEmpty, ()⟩) (slot (w - 1)) ⟨.kReady, ()⟩⟩

theorem slot_dec_sub_one (w : Word) : slot (dec w - 1) ≠ slot (w - 1) := by
  have h : At w w.toNat := rfl
  rw [h.dec.sub_one.slot, h.sub_one.slot]
  exact Ring.slot_ne (by omega) (by unfold kCapacity; omega) (by unfold kCapacity; omega)

/-- `PushBack` and then `PopFront`: the one task is one position lower. -/
theorem Snap.round {w : Word} (h : Snap s (single w) none .idle .idle) :
    ∃ s', Meanwhile s s' ∧ Snap s' (single (dec w)) none .idle .idle := by
  have hne := slot_dec_sub_one w
  obtain ⟨s₁, q₁, h₁⟩ := h.pushBack (i := slot (w - 1)) (by simp only
    [single, Function.update_self])
    (j := slot (dec w - 1)) rfl (by simp only [single, Function.update_of_ne hne])
  obtain ⟨s₂, q₂, h₂⟩ := h₁.popFront (i := slot (dec w - 1)) (by simp only [Function.update_self])
    (j := slot (w - 1)) rfl hne
    (by simp only [single, Function.update_of_ne hne.symm, Function.update_self])
  have harr : Function.update (Function.update (single w).mArray (slot (dec w - 1)) ⟨.kReady, ()⟩)
      (slot (w - 1)) ⟨.kEmpty, ()⟩ = (single (dec w)).mArray := by
    funext i
    simp only [single]
    by_cases hi : i = slot (w - 1)
    · rw [hi, Function.update_self, Function.update_of_ne hne.symm]
    · rw [Function.update_of_ne hi]
      by_cases hi' : i = slot (dec w - 1)
      · rw [hi', Function.update_self, Function.update_self]
      · rw [Function.update_of_ne hi', Function.update_of_ne hi', Function.update_of_ne hi]
  refine ⟨s₂, q₁.trans q₂, ?_⟩
  rw [show single (dec w) = ⟨dec w, dec (dec w), (single (dec w)).mArray⟩ from rfl, ← harr]
  exact h₂

/-- `n` rounds. -/
theorem Snap.rounds {w : Word} (h : Snap s (single w) none .idle .idle) (n : Nat) :
    ∃ s', Meanwhile s s' ∧ Snap s' (single (dec^[n] w)) none .idle .idle := by
  induction n with
  | zero => exact ⟨s, ⟨id, rfl, rfl, 0, by simp⟩, h⟩
  | succ n ih =>
    obtain ⟨s₁, q₁, h₁⟩ := ih
    obtain ⟨s₂, q₂, h₂⟩ := h₁.round
    refine ⟨s₂, q₁.trans q₂, ?_⟩
    rw [Function.iterate_succ_apply']
    exact h₂

theorem toNat_dec_iterate (n : Nat) : (dec^[n] 0).toNat = 2047 * n % 2048 := by
  induction n with
  | zero => rfl
  | succ n ih =>
    rw [Function.iterate_succ_apply', toNat_dec, ih]
    omega

/-- One step of thread 2, while the one task waits. -/
theorem Snap.probe {w : Word} (h : Snap s (single w) none .idle .idle) {l : Label Unit}
    {p : Pc Unit} (as : List Answer)
    (hact : act id s l = some ⟨s.d, s.mMutex, Function.update s.pc 2 p,
      { s.log with answers := as }⟩)
    (hl : NoPushFront s l) (hr : (sys id).Reach NoPushFront s) :
    ∃ s', (sys id).Reach NoPushFront s' ∧ Snap s' (single w) none .idle .idle ∧ s'.pc 2 = p ∧
      s'.log.answers = as ∧ s'.log.waits = s.log.waits ++ [true] := by
  obtain ⟨s₁, hs₁⟩ : ∃ s₁ : St Unit,
      s₁ = ⟨s.d, s.mMutex, Function.update s.pc 2 p, { s.log with answers := as }⟩ := ⟨_, rfl⟩
  rw [← hs₁] at hact
  have hw : s₁.Waiting := by
    refine ⟨slot (w - 1), ?_, ?_⟩
    · rw [hs₁, h.d]
      simp only [single, Function.update_self]
    · simp [hs₁, St.claimed, h.mMutex]
  refine ⟨s₁.tick, .step hr hl (show (act id s l).map St.tick = _ by rw [hact]; rfl), ?_⟩
  subst hs₁
  refine ⟨⟨h.d, h.mMutex, h.owner, h.other⟩, rfl, rfl, ?_⟩
  show s.log.waits ++ [decide _] = _
  rw [decide_eq_true hw]

/-- The labels of a `PushBack` on the fresh deque. -/
def onePush : List (Label Unit) :=
  [.call 1 (.pushBack ()), .move 1, .move 1, .move 1, .move 1, .move 1, .move 1, .move 1, .move 1]

/-- **`Empty` reports a deque empty that holds a task at every instant of the call**, although no
`PushFront` is called: 2048 rounds of `PushBack` and `PopFront` bring `mFront` back to the same
word. -/
theorem not_empty_sound : ∃ s, (sys id).Reach NoPushFront s ∧ ∃ a ∈ s.log.answers, a.empty = true ∧
    ∀ i, a.since.time ≤ i → i ≤ a.till.time → s.log.waits[i]? = some true := by
  obtain ⟨s₀, hr₀, h₀, hp₀⟩ : ∃ s, (sys id).Reach NoPushFront s ∧
      Snap s (single 0) none .idle .idle ∧ s.pc 2 = .idle := by
    refine ⟨(runLabels (step id) start onePush).getD start, ?_, ⟨?_, rfl, rfl, rfl⟩, rfl⟩
    · have hrun : runLabels (step id) start onePush =
          some ((runLabels (step id) start onePush).getD start) := rfl
      exact reach_runLabels (fun l => ∀ t, l ≠ .call t (.pushFront ())) (.init rfl) onePush
        (by simp [onePush]) hrun
    · have harr : ((runLabels (step id) start onePush).getD start).d.mArray =
          Function.update (Function.update (Function.update (fun _ => ⟨.kEmpty, ()⟩) (slot (0 - 1))
            ⟨.kBusy, ()⟩) (slot (0 - 1)) ⟨.kBusy, ()⟩) (slot (0 - 1)) ⟨.kReady, ()⟩ := rfl
      rw [Function.update_idem, Function.update_idem] at harr
      rw [show single 0 = ⟨0, dec 0, (single 0).mArray⟩ from rfl]
      rw [show (single 0).mArray = _ from harr.symm]
      rfl
  -- the call of `Empty`, and the first load of `mFront`
  obtain ⟨s₁, hr₁, h₁, hp₁, ha₁, hw₁⟩ := h₀.probe (l := .call 2 .empty)
    (p := .sizeFront .empty s₀.log.now) s₀.log.answers
    (by simp [act, hp₀, Call.entry, St.goto]) (fun _ hl => by cases hl) hr₀
  obtain ⟨s₂, hr₂, h₂, hp₂, ha₂, hw₂⟩ := h₁.probe (l := .move 2)
    (p := .sizeBack .empty s₀.log.now 0) s₁.log.answers
    (by simp [act, Threads.move, hp₁, h₁.d, St.goto, single]) (fun _ hl => by cases hl) hr₁
  -- 2047 rounds, the load of `mBack`, one more round, and the second load of `mFront`
  obtain ⟨s₃, q₃, h₃⟩ := h₂.rounds 2047
  have hback : dec (dec^[2047] 0) = 0 := by
    rw [← BitVec.toNat_inj, ← Function.iterate_succ_apply' dec, toNat_dec_iterate]
    rfl
  obtain ⟨s₄, hr₄, h₄, hp₄, ha₄, hw₄⟩ := h₃.probe (l := .move 2)
    (p := .sizeFront1 .empty s₀.log.now 0 0) s₃.log.answers
    (by
      simp only [act, Threads.move, q₃.probe, hp₂, h₃.d, h₃.mMutex, St.goto, single, hback])
    (fun _ hl => by cases hl) (q₃.reach hr₂)
  obtain ⟨s₅, q₅, h₅⟩ := h₄.round
  rw [hback] at h₅
  obtain ⟨s₆, hr₆, h₆, hp₆, ha₆, hw₆⟩ := h₅.probe (l := .move 2) (p := .idle)
    (s₅.log.answers ++ [Answer.mk s₀.log.now s₅.log.now true])
    (by
      simp only [act, Threads.move, q₅.probe, hp₄, h₅.d, h₅.mMutex, St.goto, single, Probe.ret]
      rfl) (fun _ hl => by cases hl) (q₅.reach hr₄)
  obtain ⟨n₃, hn₃⟩ := q₃.waits
  obtain ⟨n₅, hn₅⟩ := q₅.waits
  have hwaits : s₆.log.waits = s₀.log.waits ++ List.replicate (1 + 1 + n₃ + 1 + n₅ + 1) true := by
    rw [hw₆, hn₅, hw₄, hn₃, hw₂, hw₁]
    simp only [List.append_assoc, ← List.replicate_append_replicate, List.replicate_one]
  refine ⟨s₆, hr₆, ⟨s₀.log.now, s₅.log.now, true⟩, by rw [ha₆]; simp, rfl, fun i h1 h2 => ?_⟩
  have hlen : s₅.log.waits.length + 1 = s₆.log.waits.length := by rw [hw₆]; simp
  have h1 : s₀.log.waits.length ≤ i := h1
  have h2 : i ≤ s₅.log.waits.length := h2
  rw [hwaits, List.length_append, List.length_replicate] at hlen
  rw [hwaits, List.getElem?_append_right h1, List.getElem?_replicate, if_pos (by omega)]

end Threads

end TaskDeque

end AsyncLib
