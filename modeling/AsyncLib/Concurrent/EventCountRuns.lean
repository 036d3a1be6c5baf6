import AsyncLib.Concurrent.EventCountNotify

/-!
# The runs of `EventCount`

* `reach_inv`: the invariant holds in every reachable state.
* `Inv.asserts`: the invariant implies the assertions of the program.
* `event_count_correct`: what holds in every reachable state, in terms of the program.
* `reach_of_short`: a run of at most `2^22` steps meets the condition on the pushes.
-/

namespace AsyncLib

namespace EventCount

open Sys

variable {n : Nat} {s s' : St} {t : Tid} {m : Nid}

/-- Every step of a run keeps the invariant. -/
theorem Inv.step {l : Label} (hn : n < 2 ^ 14 - 1) (hf : Fresh s) (h : Inv n s)
    (hs : step n s l = some s') : Inv n s' := by
  cases l with
  | prewait t =>
    simp only [EventCount.step] at hs
    split at hs
    · rename_i hc
      cases hs
      have hw := h.waiter t
      rw [hc.2] at hw
      exact h.quiet hc.1 (hw.goto rfl rfl rfl trivial) (by rw [hc.2]; rfl) (by simp)
    · cases hs
  | cancelWait t =>
    simp only [EventCount.step] at hs
    split at hs
    · rename_i hc
      cases hs
      have hw := h.waiter t
      rw [hc] at hw
      exact h.quiet (h.range t (by rw [hc]; simp)) (hw.goto rfl rfl rfl trivial) (by rw [hc]; rfl)
        (by simp)
    · cases hs
  | commitWait t =>
    simp only [EventCount.step] at hs
    split at hs
    · rename_i hc
      cases hs
      have hw := h.waiter t
      rw [hc] at hw
      exact h.quiet (h.range t (by rw [hc]; simp)) (hw.goto rfl rfl rfl trivial) (by rw [hc]; rfl)
        (by simp)
    · cases hs
  | notify m all =>
    simp only [EventCount.step] at hs
    split at hs
    · rename_i hc
      cases hs
      exact h.notify_quiet rfl rfl rfl rfl rfl rfl (fun _ _ => rfl) trivial (by rw [hc]; rfl)
        (by rw [hc]; rfl) (by rw [hc]; rfl) (by rw [hc]; rfl)
    · cases hs
  | move t weak => exact h.move hn hs
  | notifyMove m weak => exact h.notifyMove hn hf hs

theorem inv_start (n : Nat) : Inv n start where
  waiter t := ⟨by simp [start, Pc.committed], fun hc => absurd rfl hc, rfl, isLink_zero,
    by simp [start, Pc.locked], fun hc => absurd rfl hc, trivial⟩
  range t hc := absurd rfl hc
  count := by
    have hz : ∀ n, AsyncLib.count Pc.pre n start.pc = 0 := fun n => by
      induction n with
      | zero => rfl
      | succ n ih => rw [count_succ, ih]; rfl
    rw [hz]
    rfl
  signals := by decide
  stack := ⟨[], rfl, List.nodup_nil, fun w => by simp [start]⟩
  notifier m := ⟨trivial, fun w => by simp [start, NPc.locks], [], rfl, List.nodup_nil,
    fun w => by simp [start, NPc.cur]⟩
  wake t hc := by cases hc

theorem reach_inv (hn : n < 2 ^ 14 - 1) (hs : (sys n).Reach (fun s _ => Fresh s) s) : Inv n s :=
  hs.invariant (fun s h => by cases h; exact inv_start n) fun _ _ _ hi hf hs => hi.step hn hf hs

/-! ## The assertions -/

theorem WordOk.check {w : Word64} (hn : n < 2 ^ 14 - 1) (h : WordOk n w) :
    checkState w false = true :=
  (Parts.self w).check h.signals (Nat.lt_of_le_of_lt h.waiters hn)

theorem WordOk.check_waiter {w : Word64} (hn : n < 2 ^ 14 - 1) (h : WordOk n w)
    (hpos : 0 < (waitersOf w).toNat) : checkState w true = true :=
  (Parts.self w).check_waiter h.signals (Nat.lt_of_le_of_lt h.waiters hn) hpos

/-- No assertion of a thread fails. -/
theorem WaiterOk.asserts {pc : Pc} {W : Waiter} {r : Role} {k : Nat} (hn : n < 2 ^ 14 - 1)
    (ht : pc ≠ .idle → t < n) (h : WaiterOk n pc W r k) : pc.asserts t W = true := by
  have hk := h.known
  cases pc with
  | prewaitCas state =>
    obtain ⟨hok, hlt⟩ := hk
    have hp := (Parts.self state).prewait (by omega)
    have hle := hok.signals
    exact Bool.and_eq_true_iff.mpr ⟨hok.check hn, hp.check (by omega) (by omega)⟩
  | cancelCas state =>
    obtain ⟨hok, hpos⟩ := hk
    obtain ⟨p, hpw⟩ : ∃ p, (waitersOf state).toNat = p + 1 := ⟨_, (Nat.sub_add_cancel hpos).symm⟩
    have hparts := Parts.self state
    have hle := hok.signals
    have hwn := hok.waiters
    rw [hpw] at hparts hle hwn
    exact Bool.and_eq_true_iff.mpr
      ⟨hok.check_waiter hn hpos, (hparts.cancel hle).check (Nat.min_le_right _ _) (by omega)⟩
  | commitState =>
    have he : W.epoch = epochWord k := h.epoch
    exact beq_iff_eq.mpr (he ▸ epochWord_check k)
  | commitNext state =>
    obtain ⟨-, hok, hpos, -⟩ := hk
    exact hok.check_waiter hn hpos
  | commitCas state =>
    obtain ⟨-, hok, hpos, -⟩ := hk
    obtain ⟨p, hpw⟩ : ∃ p, (waitersOf state).toNat = p + 1 := ⟨_, (Nat.sub_add_cancel hpos).symm⟩
    have hparts := Parts.self state
    have hle := hok.signals
    have hwn := hok.waiters
    rw [hpw] at hparts hle hwn
    refine Bool.and_eq_true_iff.mpr ⟨hok.check_waiter hn hpos, ?_⟩
    split
    · rename_i hs
      have hs' := (signalMask_ne_zero state).mp hs
      obtain ⟨g, hgw⟩ : ∃ g, (signalsOf state).toNat = g + 1 := ⟨_, (Nat.sub_add_cancel hs').symm⟩
      rw [hgw] at hparts hle
      exact hparts.take.check (by omega) (by omega)
    · have he : W.epoch = epochWord k := h.epoch
      have htn : t < 2 ^ 14 := Nat.lt_of_lt_of_le (ht (by simp)) (by omega)
      rw [he]
      exact (hparts.push (isLink_meOf htn k)).check (by omega) (by omega)
  | _ => rfl

/-- No assertion of a `Notify` fails. -/
theorem NotifierOk.asserts (hn : n < 2 ^ 14 - 1) (h : NotifierOk n s m) :
    (s.npc m).asserts = true := by
  have hk := h.known
  cases hp : s.npc m with
  | next state =>
    rw [hp] at hk
    exact hk.1.check hn
  | cas all state newstate =>
    rw [hp] at hk
    obtain ⟨hok, hplan⟩ := hk
    have hwn := hok.waiters
    refine Bool.and_eq_true_iff.mpr ⟨hok.check hn, ?_⟩
    cases hplan with
    | all =>
      exact (Parts.self state).notifyAll.check (Nat.le_refl _) (by omega)
    | signal hlt =>
      exact ((Parts.self state).signal (by omega)).check hlt (by omega)
    | pop heq hpop hl _ =>
      exact ((Parts.self state).pop hl).check hok.signals (by omega)
  | _ => rfl

theorem Inv.asserts (hn : n < 2 ^ 14 - 1) (h : Inv n s) : Asserts s where
  word := h.wordOk.check hn
  wait t := (h.waiter t).asserts hn (h.range t)
  notify m := (h.notifier m).asserts hn

/-- The links from `mState` visit the waiters that committed and were not popped. -/
theorem Inv.linked (hn : n < 2 ^ 14 - 1) (h : Inv n s) :
    ∃ l, Linked s.succ (topOf s.mState) l ∧ l.Nodup ∧ ∀ w, w ∈ l ↔ s.log.role w = .stacked := by
  obtain ⟨l, h1, h2, h3⟩ := h.stack
  refine ⟨l, ?_, h2, h3⟩
  rw [← topOf_linkOf]
  exact h1.linked fun u hu => Nat.lt_trans (h.stacked_lt (by rw [(h3 u).mp hu]; simp)) hn

/-- Without a thread in pre-wait state or on the stack, `mState` is what it was at first. -/
theorem Inv.quiescent (h : Inv n s) (hpre : ∀ t, (s.pc t).pre = false)
    (hst : ∀ w, s.log.role w ≠ .stacked) : s.mState = kStackMask := by
  have hz : (waitersOf s.mState).toNat = 0 := by
    rw [h.count, AsyncLib.count, List.countP_eq_zero]
    exact fun t _ => by simp [hpre t]
  have hs := h.signals
  obtain ⟨l, h1, -, h3⟩ := h.stack
  have hl : l = [] := List.eq_nil_iff_forall_not_mem.mpr fun w hw => hst w ((h3 w).mp hw)
  subst hl
  have hparts : Parts s.mState kStackMask 0 0 := ⟨h1, hz, by omega⟩
  exact hparts.unique ⟨rfl, rfl, rfl⟩

/-! ## Short runs -/

theorem notifyRead_pushes (all : Bool) : (s.notifyRead m all).log.pushes = s.log.pushes := by
  rw [St.notifyRead]
  split <;> rfl

/-- A step pushes a waiter once at most. -/
theorem step_pushes {l : Label} (hs : step n s l = some s') (w : Nat) :
    s'.log.pushes w ≤ s.log.pushes w + 1 := by
  have hquiet : s'.log.pushes = s.log.pushes → s'.log.pushes w ≤ s.log.pushes w + 1 := fun h => by
    rw [h]
    exact Nat.le_succ _
  cases l with
  | prewait t =>
    simp only [step, Option.ite_none_right_eq_some] at hs
    exact hquiet (by rw [← Option.some.inj hs.2]; rfl)
  | cancelWait t =>
    simp only [step, Option.ite_none_right_eq_some] at hs
    exact hquiet (by rw [← Option.some.inj hs.2]; rfl)
  | commitWait t =>
    simp only [step, Option.ite_none_right_eq_some] at hs
    exact hquiet (by rw [← Option.some.inj hs.2]; rfl)
  | notify m all =>
    simp only [step, Option.ite_none_right_eq_some] at hs
    exact hquiet (by rw [← Option.some.inj hs.2]; rfl)
  | move t weak =>
    cases hp : s.pc t <;> simp only [step, move, hp] at hs
    case commitCas state =>
      split at hs
      · split at hs
        · exact hquiet (by rw [← Option.some.inj hs]; rfl)
        · rw [← Option.some.inj hs]
          change Function.update s.log.pushes t (s.log.pushes t + 1) w ≤ _
          by_cases hw : w = t
          · rw [hw, Function.update_self]
          · rw [Function.update_of_ne hw]
            exact Nat.le_succ _
      · exact hquiet (by rw [← Option.some.inj hs]; rfl)
    all_goals try split at hs
    all_goals first | exact hquiet (by rw [← Option.some.inj hs]; rfl) | cases hs
  | notifyMove m weak =>
    cases hp : s.npc m <;> simp only [step, notifyMove, hp] at hs
    case load all => exact hquiet (by rw [← Option.some.inj hs]; exact notifyRead_pushes all)
    case cas all state newstate =>
      split at hs
      · split at hs
        · exact hquiet (by rw [← Option.some.inj hs]; rfl)
        · split at hs
          · exact hquiet (by rw [← Option.some.inj hs]; rfl)
          · split at hs <;> exact hquiet (by rw [← Option.some.inj hs]; rfl)
      · exact hquiet (by rw [← Option.some.inj hs]; exact notifyRead_pushes all)
    case unparkWake w nx =>
      refine hquiet ?_
      rw [← Option.some.inj hs]
      split <;> rfl
    all_goals try split at hs
    all_goals first | exact hquiet (by rw [← Option.some.inj hs]; rfl) | cases hs

/-- A run of at most `2^22` steps is one of those that the condition on the pushes admits. -/
theorem reach_of_short (ls : List Label) (hlen : ls.length ≤ 2 ^ 22)
    (hr : runLabels (step n) start ls = some s) : (sys n).Reach (fun s _ => Fresh s) s := by
  have gen : ∀ ls s₀, (sys n).Reach (fun s _ => Fresh s) s₀ →
      (∀ w, s₀.log.pushes w + ls.length ≤ 2 ^ 22) → runLabels (step n) s₀ ls = some s →
      (sys n).Reach (fun s _ => Fresh s) s := by
    intro ls
    induction ls with
    | nil =>
      intro s₀ hs _ hr
      cases hr
      exact hs
    | cons l ls ih =>
      intro s₀ hs hp hr
      obtain ⟨s₁, h1, h2⟩ := Option.bind_eq_some_iff.mp hr
      have hf : Fresh s₀ := fun m w _ => by
        have := hp w
        rw [List.length_cons] at this
        rw [show kEpochBits = 22 from rfl]
        omega
      refine ih s₁ (.step hs hf h1) (fun w => ?_) h2
      have := step_pushes h1 w
      have := hp w
      rw [List.length_cons] at this
      omega
  exact gen ls start (.init rfl) (fun w => by simpa [start] using hlen) hr

/-- Fewer than `2^14 - 1` threads, each with its own waiter, and any callers of `Notify`: in every
reachable state of a run without `2^22` pushes of one waiter during an attempt of a `Notify`, the
pre-wait field counts the threads in pre-wait state, the signals are not more, the stack is the
list of the waiters that committed and were not popped, no assertion fails, and with nobody in
pre-wait state or on the stack the word is `kStackMask`. -/
theorem event_count_correct (hn : n < 2 ^ 14 - 1) (hs : (sys n).Reach (fun s _ => Fresh s) s) :
    (waitersOf s.mState).toNat = count Pc.pre n s.pc ∧
    (signalsOf s.mState).toNat ≤ (waitersOf s.mState).toNat ∧
    (∃ l, Linked s.succ (topOf s.mState) l ∧ l.Nodup ∧
      ∀ w, w ∈ l ↔ s.log.role w = .stacked) ∧
    Asserts s ∧
    ((∀ t, (s.pc t).pre = false) → (∀ w, s.log.role w ≠ .stacked) → s.mState = kStackMask) :=
  have h := reach_inv hn hs
  ⟨h.count, h.signals, h.linked hn, h.asserts hn, h.quiescent⟩

/-- Thread 0 commits and goes on the stack, thread 1 is in pre-wait state, and a `Notify(false)` has
signalled it. -/
def shortLabels : List Label :=
  [.prewait 0, .move 0 false, .move 0 false, .commitWait 0, .move 0 false, .move 0 false,
    .move 0 false, .move 0 false, .prewait 1, .move 1 false, .move 1 true, .move 1 false,
    .notify 0 false, .notifyMove 0 false, .notifyMove 0 false]

/-- The state after `shortLabels`. -/
def shortState : St := (runLabels (step 2) start shortLabels).getD start

theorem event_count_correct_short :
    shortState.log.trace = [.prewait 0, .park 0, .prewait 1, .notify false] ∧
    (waitersOf shortState.mState).toNat = count Pc.pre 2 shortState.pc ∧
    (signalsOf shortState.mState).toNat ≤ (waitersOf shortState.mState).toNat ∧
    (∃ l, Linked shortState.succ (topOf shortState.mState) l ∧ l.Nodup ∧
      ∀ w, w ∈ l ↔ shortState.log.role w = .stacked) ∧
    Asserts shortState ∧
    ((∀ t, (shortState.pc t).pre = false) → (∀ w, shortState.log.role w ≠ .stacked) →
      shortState.mState = kStackMask) :=
  ⟨by decide, event_count_correct (by decide) (reach_of_short shortLabels (by decide) (by rfl))⟩

end EventCount

end AsyncLib
