import Mathlib.Algebra.Order.BigOperators.Group.List
import Mathlib.Algebra.Order.Group.Nat
import AsyncLib.Lib.Modify
import AsyncLib.Lib.System

/-!
# `AddRef` and `DropRef` by many threads

`async/context/async_value.h`: the counter of an `AsyncValue` under sequentially consistent
interleaving of the addition of `AddRef` and of the load and the subtraction of `DropRef`.

* `Thread`: the references that a thread holds, and where it is in `DropRef`. The references that a
  `DropRef` gives up are held until its subtraction, or until its load if it finds them to be all.
* `step`: the calls are made by threads that hold a reference, and a thread may hand references
  over.
* `Inv`: while the value lives the counter is the number of references held; afterwards none is
  held.
* `refCount_correct`: `Destroy` in every run.
-/

namespace AsyncLib

namespace RefCount

open Sys

/-! ## The code -/

/-- Where a thread is. -/
inductive Pc where
  | idle
  /-- At the load of `DropRef(count)`. -/
  | load (count : Nat)
  /-- At its subtraction. -/
  | sub (count : Nat)
  /-- At its call of `Destroy`. -/
  | destroy
  deriving DecidableEq, Repr

/-- The references that a thread holds, and its place in `DropRef`. -/
structure Thread where
  held : Nat
  pc : Pc
  deriving DecidableEq, Repr

/-- The counter, the threads, and how often `Destroy` was called. -/
structure St where
  mRefCount : Nat
  threads : List Thread
  /-- How often `Destroy` was called. -/
  destroyed : Nat
  deriving DecidableEq, Repr

/-- A call begins, goes on, or references change hands. -/
inductive Label where
  | addRef (t count : Nat)
  | dropRef (t count : Nat)
  /-- Thread `t` goes on in `DropRef`. -/
  | step (t : Nat)
  /-- Thread `t` hands `n` references over to thread `u`. -/
  | give (t u n : Nat)
  deriving DecidableEq, Repr

/-- Thread `t` becomes `th`. -/
def St.put (s : St) (t : Nat) (th : Thread) : St := { s with threads := s.threads.set t th }

/-- `mRefCount.fetch_add(count)` and `mRefCount.fetch_sub(count)`, on 32 bits. -/
def fetchAdd (x count : Nat) : Nat := (x + count) % 2 ^ 32

/-- `fetch_sub` on 32 bits. -/
def fetchSub (x count : Nat) : Nat := (x + 2 ^ 32 - count) % 2 ^ 32

/-- An atomic step of `DropRef`. -/
def dropRef (s : St) (t : Nat) (th : Thread) : Option St :=
  match th.pc with
  | .load count =>
    some (if s.mRefCount = count then s.put t ⟨th.held - count, .destroy⟩
      else s.put t ⟨th.held, .sub count⟩)
  | .sub count =>
    some ({ s with mRefCount := fetchSub s.mRefCount count }.put t
      ⟨th.held - count, if s.mRefCount = count then .destroy else .idle⟩)
  | .destroy => some ({ s with destroyed := s.destroyed + 1 }.put t ⟨th.held, .idle⟩)
  | .idle => none

/-- A step of the thread `t`; `none` if it does not hold what the step takes. -/
def step (s : St) : Label → Option St
  | .addRef t count =>
    s.threads[t]?.bind fun th =>
      if th.pc = .idle ∧ 0 < th.held then
        some ({ s with mRefCount := fetchAdd s.mRefCount count }.put t ⟨th.held + count, .idle⟩)
      else none
  | .dropRef t count =>
    s.threads[t]?.bind fun th =>
      if th.pc = .idle ∧ 0 < th.held ∧ count ≤ th.held then some (s.put t ⟨th.held, .load count⟩)
      else none
  | .step t => s.threads[t]?.bind fun th => dropRef s t th
  | .give t u n =>
    s.threads[t]?.bind fun giver => s.threads[u]?.bind fun taker =>
      if giver.pc = .idle ∧ n ≤ giver.held ∧ t ≠ u then
        some ((s.put t ⟨giver.held - n, .idle⟩).put u ⟨taker.held + n, taker.pc⟩)
      else none

/-- The references that threads hold. -/
def St.held (s : St) : Nat := (s.threads.map Thread.held).sum

/-- A new value, with one reference that some thread holds. -/
def St.New (s : St) : Prop :=
  s.mRefCount = 1 ∧ s.held = 1 ∧ s.destroyed = 0 ∧ ∀ th ∈ s.threads, th.pc = .idle

instance (s : St) : Decidable s.New := inferInstanceAs (Decidable (_ ∧ _))

/-- All runs from `s₀`. -/
def sys (s₀ : St) : Sys St Label := Sys.ofFun s₀ step

/-- The counter does not overflow. -/
def Fits (s : St) : Label → Prop
  | .addRef _ count => s.mRefCount + count < 2 ^ 32
  | _ => True

instance (s : St) : ∀ l, Decidable (Fits s l)
  | .addRef _ _ => inferInstanceAs (Decidable (_ < _))
  | .dropRef _ _ | .step _ | .give _ _ _ => inferInstanceAs (Decidable True)

/-! ## The invariant -/

/-- The thread is about to call `Destroy`. -/
def Thread.atDestroy (th : Thread) : Bool := decide (th.pc = .destroy)

/-- A thread in `DropRef` holds what it gives up. -/
def Thread.Ok (th : Thread) : Prop :=
  ∀ count, th.pc = .load count ∨ th.pc = .sub count → 0 < th.held ∧ count ≤ th.held

/-- The calls of `Destroy`, made or about to be made. -/
def St.destroys (s : St) : Nat := s.destroyed + s.threads.countP Thread.atDestroy

/-- The invariant (module doc). -/
structure Inv (s : St) : Prop where
  threads : ∀ th ∈ s.threads, th.Ok
  counter : s.destroys = 0 ∧ s.mRefCount = s.held ∧ 0 < s.held ∧ s.held < 2 ^ 32 ∨
    s.destroys = 1 ∧ s.held = 0

section Moves

variable {s s' : St} {t : Nat} {th th' : Thread}

theorem put_mRefCount (s : St) (t x : Nat) (th : Thread) :
    ({ s with mRefCount := x }.put t th).mRefCount = x := rfl

theorem put_destroyed (s : St) (t x : Nat) (th : Thread) :
    ({ s with mRefCount := x }.put t th).destroyed = s.destroyed := rfl

/-- A move of thread `t` in the sums. -/
theorem held_set (ht : s.threads[t]? = some th) (hs : s'.threads = s.threads.set t th') :
    s'.held + th.held = s.held + th'.held := by
  have := sum_modify (w := Thread.held) (f := fun _ => th') ht
  rw [modify_eq_set_of ht, ← hs] at this
  exact this

theorem destroys_set (ht : s.threads[t]? = some th) (hs : s'.threads = s.threads.set t th') :
    s'.destroys + s.destroyed + th.atDestroy.toNat =
      s.destroys + s'.destroyed + th'.atDestroy.toNat := by
  have := countP_set_add (p := Thread.atDestroy) (y := th') ht
  rw [← hs] at this
  simp only [St.destroys]
  omega

theorem ok_set (h : ∀ th ∈ s.threads, th.Ok) (hs : s'.threads = s.threads.set t th')
    (hok : th'.Ok) : ∀ th ∈ s'.threads, th.Ok := by
  intro x hx
  rw [hs] at hx
  rcases List.mem_or_eq_of_mem_set hx with hx | rfl
  · exact h x hx
  · exact hok

/-- What a thread holds is held. -/
theorem held_le (hth : th ∈ s.threads) : th.held ≤ s.held :=
  List.single_le_sum (fun _ _ => Nat.zero_le _) _ (List.mem_map_of_mem hth)

/-- While a reference is held, the value lives and the counter is right. -/
theorem Inv.lives (h : Inv s) (hpos : 0 < s.held) :
    s.destroys = 0 ∧ s.mRefCount = s.held ∧ s.held < 2 ^ 32 := by
  rcases h.counter with ⟨h1, h2, -, h3⟩ | ⟨-, h0⟩
  · exact ⟨h1, h2, h3⟩
  · omega

theorem ok_idle (n : Nat) : Thread.Ok ⟨n, .idle⟩ := by
  rintro count (h | h) <;> cases h

theorem ok_destroy (n : Nat) : Thread.Ok ⟨n, .destroy⟩ := by
  rintro count (h | h) <;> cases h

/-- What a step of `DropRef` can do. -/
theorem dropRef_cases (hs : dropRef s t th = some s') : ∃ th', s'.threads = s.threads.set t th' ∧
    ((∃ count, th.pc = .load count ∧ s'.destroyed = s.destroyed ∧ s'.mRefCount = s.mRefCount ∧
        (s.mRefCount = count ∧ th' = ⟨th.held - count, .destroy⟩ ∨
          s.mRefCount ≠ count ∧ th' = ⟨th.held, .sub count⟩)) ∨
      (∃ count, th.pc = .sub count ∧ s'.destroyed = s.destroyed ∧
        s'.mRefCount = fetchSub s.mRefCount count ∧
        (s.mRefCount = count ∧ th' = ⟨th.held - count, .destroy⟩ ∨
          s.mRefCount ≠ count ∧ th' = ⟨th.held - count, .idle⟩)) ∨
      (th.pc = .destroy ∧ s'.destroyed = s.destroyed + 1 ∧ s'.mRefCount = s.mRefCount ∧
        th' = ⟨th.held, .idle⟩)) := by
  unfold RefCount.dropRef at hs
  split at hs
  · rename_i count hpc
    simp only [Option.some.injEq] at hs
    split at hs <;> rename_i hc <;> subst hs
    · exact ⟨_, rfl, .inl ⟨count, hpc, rfl, rfl, .inl ⟨hc, rfl⟩⟩⟩
    · exact ⟨_, rfl, .inl ⟨count, hpc, rfl, rfl, .inr ⟨hc, rfl⟩⟩⟩
  · rename_i count hpc
    by_cases hc : s.mRefCount = count
    · rw [if_pos hc] at hs
      cases hs
      exact ⟨_, rfl, .inr (.inl ⟨count, hpc, put_destroyed _ _ _ _, put_mRefCount _ _ _ _, .inl
        ⟨hc, rfl⟩⟩)⟩
    · rw [if_neg hc] at hs
      cases hs
      exact ⟨_, rfl, .inr (.inl ⟨count, hpc, put_destroyed _ _ _ _, put_mRefCount _ _ _ _, .inr
        ⟨hc, rfl⟩⟩)⟩
  · rename_i hpc
    cases hs
    exact ⟨_, rfl, .inr (.inr ⟨hpc, rfl, rfl, rfl⟩)⟩
  · cases hs

/-- A step of `DropRef`: it gives up the last references if and only if it goes on to `Destroy`. -/
theorem Inv.dropRef (h : Inv s) (ht : s.threads[t]? = some th) (hs : dropRef s t th = some s') :
    Inv s' ∧ (s.held ≠ 0 → (s'.held = 0 ↔ ∃ n, s'.threads[t]? = some ⟨n, .destroy⟩)) ∧
      (s.held = 0 → s'.held = 0) := by
  have hmem := List.mem_of_getElem? ht
  have hok := h.threads th hmem
  have hle := held_le hmem
  obtain ⟨th', hset, hcases⟩ := dropRef_cases hs
  have hsum := held_set ht hset
  have hdes := destroys_set ht hset
  have hget : s'.threads[t]? = some th' := by
    rw [hset, List.getElem?_set_self (List.getElem?_eq_some_iff.mp ht).1]
  obtain ⟨held, pc⟩ := th
  rw [hget]
  rcases hcases with ⟨count, hpc, hd, hc, hcase⟩ | ⟨count, hpc, hd, hc, hcase⟩ | ⟨hpc, hd, hc, rfl⟩
  · obtain rfl : pc = .load count := hpc
    obtain ⟨hpos, hcount⟩ := hok count (.inl rfl)
    obtain ⟨hd0, hc0, hlt⟩ := h.lives (Nat.lt_of_lt_of_le hpos hle)
    rcases hcase with ⟨heq, rfl⟩ | ⟨hne, rfl⟩
    · -- the references given up are all there are
      have h1 : Thread.atDestroy ⟨held, .load count⟩ = false := rfl
      have h2 : Thread.atDestroy ⟨held - count, .destroy⟩ = true := rfl
      simp only [h1, h2, Bool.toNat_true, Bool.toNat_false] at hsum hdes hle hpos hcount
      exact ⟨⟨ok_set h.threads hset (ok_destroy _), .inr ⟨by omega, by omega⟩⟩,
        fun _ => ⟨fun _ => ⟨_, rfl⟩, fun _ => by omega⟩, fun h0 => by omega⟩
    · have h1 : Thread.atDestroy ⟨held, .load count⟩ = false := rfl
      have h2 : Thread.atDestroy ⟨held, .sub count⟩ = false := rfl
      simp only [h1, h2, Bool.toNat_false] at hsum hdes hle hpos hcount
      refine ⟨⟨ok_set h.threads hset ?_, .inl ⟨by omega, by omega, by omega, by omega⟩⟩,
        fun _ => ⟨fun h0 => by omega, nofun⟩, fun h0 => by omega⟩
      rintro c (he | he)
      · cases he
      · cases he
        exact ⟨hpos, hcount⟩
  · obtain rfl : pc = .sub count := hpc
    obtain ⟨hpos, hcount⟩ := hok count (.inr rfl)
    obtain ⟨hd0, hc0, hlt⟩ := h.lives (Nat.lt_of_lt_of_le hpos hle)
    have hsub : fetchSub s.mRefCount count = s.held - count := by
      simp only [fetchSub] at hcount hle ⊢
      omega
    have h1 : Thread.atDestroy ⟨held, .sub count⟩ = false := rfl
    rcases hcase with ⟨heq, rfl⟩ | ⟨hne, rfl⟩
    · have h2 : Thread.atDestroy ⟨held - count, .destroy⟩ = true := rfl
      simp only [h1, h2, Bool.toNat_true, Bool.toNat_false] at hsum hdes hle hpos hcount
      exact ⟨⟨ok_set h.threads hset (ok_destroy _), .inr ⟨by omega, by omega⟩⟩,
        fun _ => ⟨fun _ => ⟨_, rfl⟩, fun _ => by omega⟩, fun h0 => by omega⟩
    · have h2 : Thread.atDestroy ⟨held - count, .idle⟩ = false := rfl
      simp only [h1, h2, Bool.toNat_false] at hsum hdes hle hpos hcount
      exact ⟨⟨ok_set h.threads hset (ok_idle _), .inl ⟨by omega, by omega, by omega, by omega⟩⟩,
        fun _ => ⟨fun h0 => by omega, nofun⟩, fun h0 => by omega⟩
  · obtain rfl : pc = .destroy := hpc
    have h1 : Thread.atDestroy ⟨held, .destroy⟩ = true := rfl
    have h2 : Thread.atDestroy ⟨held, .idle⟩ = false := rfl
    have hone : 1 ≤ s.destroys := by
      have := List.countP_pos_iff.mpr ⟨_, hmem, h1⟩
      simp only [St.destroys]
      omega
    simp only [h1, h2, Bool.toNat_true, Bool.toNat_false] at hsum hdes hle
    rcases h.counter with ⟨h0, -⟩ | ⟨hd1, h0⟩
    · omega
    · exact ⟨⟨ok_set h.threads hset (ok_idle _), .inr ⟨by omega, by omega⟩⟩,
        fun hne => absurd h0 hne, fun _ => by omega⟩

/-- A step: it gives up the last references if and only if it is one of a `DropRef` that goes on to
`Destroy`. -/
theorem Inv.step (h : Inv s) {l : Label} (hfits : Fits s l) (hs : step s l = some s') :
    Inv s' ∧ (s.held ≠ 0 → (s'.held = 0 ↔ ∃ t n, l = .step t ∧ s'.threads[t]? = some
      ⟨n, .destroy⟩)) ∧
      (s.held = 0 → s'.held = 0) := by
  cases l with
  | addRef t count =>
    obtain ⟨th, ht, hs⟩ := Option.bind_eq_some_iff.mp hs
    obtain ⟨⟨hpc, hpos⟩, hs⟩ := Option.ite_none_right_eq_some.mp hs
    have hle := held_le (List.mem_of_getElem? ht)
    obtain ⟨hd, hc, hlt⟩ := h.lives (Nat.lt_of_lt_of_le hpos hle)
    have hfit : s.mRefCount + count < 2 ^ 32 := hfits
    have hadd : fetchAdd s.mRefCount count = s.mRefCount + count := Nat.mod_eq_of_lt hfit
    rw [hadd] at hs
    obtain ⟨hset, hdestroyed, hcount⟩ : s'.threads = s.threads.set t ⟨th.held + count, .idle⟩ ∧
        s'.destroyed = s.destroyed ∧ s'.mRefCount = s.mRefCount + count := by
      cases hs
      exact ⟨rfl, put_destroyed _ _ _ _, rfl⟩
    have hsum := held_set ht hset
    have hdes := destroys_set ht hset
    simp only [Thread.atDestroy, hpc, reduceCtorEq, decide_false, Bool.toNat_false] at hsum hdes
    exact ⟨⟨ok_set h.threads hset (ok_idle _), .inl ⟨by omega, by omega, by omega, by omega⟩⟩,
      fun _ => ⟨fun h0 => by omega, nofun⟩, fun h0 => by omega⟩
  | dropRef t count =>
    obtain ⟨th, ht, hs⟩ := Option.bind_eq_some_iff.mp hs
    obtain ⟨⟨hpc, hpos, hle'⟩, hs⟩ := Option.ite_none_right_eq_some.mp hs
    have hle := held_le (List.mem_of_getElem? ht)
    obtain ⟨hd, hc, hlt⟩ := h.lives (Nat.lt_of_lt_of_le hpos hle)
    obtain ⟨hset, hdestroyed, hcount⟩ : s'.threads = s.threads.set t ⟨th.held, .load count⟩ ∧
        s'.destroyed = s.destroyed ∧ s'.mRefCount = s.mRefCount := by
      cases hs
      exact ⟨rfl, rfl, rfl⟩
    have hsum := held_set ht hset
    have hdes := destroys_set ht hset
    simp only [Thread.atDestroy, hpc, reduceCtorEq, decide_false, Bool.toNat_false] at hsum hdes
    refine ⟨⟨ok_set h.threads hset ?_, .inl ⟨by omega, by omega, by omega, by omega⟩⟩,
      fun _ => ⟨fun h0 => by omega, nofun⟩, fun h0 => by omega⟩
    rintro c (he | he)
    · cases he
      exact ⟨hpos, hle'⟩
    · cases he
  | step t =>
    obtain ⟨th, ht, hs⟩ := Option.bind_eq_some_iff.mp hs
    obtain ⟨hinv, hlast, hzero⟩ := h.dropRef ht hs
    refine ⟨hinv, fun hne => ?_, hzero⟩
    rw [hlast hne]
    constructor
    · rintro ⟨n, hn⟩
      exact ⟨t, n, rfl, hn⟩
    · rintro ⟨u, n, he, hn⟩
      cases he
      exact ⟨n, hn⟩
  | give t u n =>
    obtain ⟨giver, ht, hs⟩ := Option.bind_eq_some_iff.mp hs
    obtain ⟨taker, hu, hs⟩ := Option.bind_eq_some_iff.mp hs
    obtain ⟨⟨hpc, hn, hne⟩, hs⟩ := Option.ite_none_right_eq_some.mp hs
    have hgive : (s.put t ⟨giver.held - n, .idle⟩).threads =
      s.threads.set t ⟨giver.held - n, .idle⟩ := rfl
    have hu' : (s.put t ⟨giver.held - n, .idle⟩).threads[u]? = some taker := by
      rw [hgive, List.getElem?_set_ne hne, hu]
    have hset : s'.threads = (s.put t ⟨giver.held - n, .idle⟩).threads.set u
        ⟨taker.held + n, taker.pc⟩ := by
      cases hs
      rfl
    have hcount : s'.mRefCount = s.mRefCount := by
      cases hs
      rfl
    have hdestroyed : s'.destroyed = s.destroyed := by
      cases hs
      rfl
    have hsum1 := held_set ht hgive
    have hdes1 := destroys_set ht hgive
    have hsum2 := held_set hu' hset
    have hdes2 := destroys_set hu' hset
    have hput : (s.put t ⟨giver.held - n, .idle⟩).destroyed = s.destroyed := rfl
    simp only [Thread.atDestroy, hpc, reduceCtorEq, decide_false, Bool.toNat_false]
      at hsum1 hsum2 hdes1 hdes2
    have hheld : s'.held = s.held := by omega
    have hdes : s'.destroys = s.destroys := by omega
    refine ⟨⟨ok_set (ok_set h.threads hgive (ok_idle _)) hset ?_, ?_⟩,
      fun hne => ⟨fun h0 => absurd (hheld ▸ h0) hne, nofun⟩, fun h0 => hheld.trans h0⟩
    · intro c hc
      obtain ⟨h1, h2⟩ := h.threads taker (List.mem_of_getElem? hu) c hc
      exact ⟨Nat.add_pos_left h1 n, Nat.le_trans h2 (Nat.le_add_right _ _)⟩
    · rw [hdes, hheld, hcount]
      exact h.counter

end Moves

/-! ## `Destroy` -/

/-- `Destroy` is called once, by the `DropRef` that gives up the last references, when none is
held. -/
structure Correct (s : St) : Prop where
  once : s.destroyed ≤ 1
  /-- It is called when no reference is held. -/
  calling : ∀ th ∈ s.threads, th.pc = .destroy → s.held = 0
  called : s.destroyed = 1 → s.held = 0
  /-- While a reference is held the counter is right. -/
  counter : s.held ≠ 0 → s.mRefCount = s.held
  /-- When no reference is held and no thread is in `DropRef`, it was called. -/
  final : s.held = 0 → (∀ th ∈ s.threads, th.pc = .idle) → s.destroyed = 1
  last : ∀ l s', Fits s l → step s l = some s' → s.held ≠ 0 →
    (s'.held = 0 ↔ ∃ t n, l = .step t ∧ s'.threads[t]? = some ⟨n, .destroy⟩)

variable {s₀ s : St}

theorem Inv.new (h : s₀.New) : Inv s₀ := by
  obtain ⟨hcount, hheld, hdestroyed, hidle⟩ := h
  have hzero : s₀.threads.countP Thread.atDestroy = 0 :=
    List.countP_eq_zero.mpr fun th hth => by simp [Thread.atDestroy, hidle th hth]
  refine ⟨fun th hth count hc => ?_, .inl ⟨?_, ?_, ?_, ?_⟩⟩
  · rw [hidle th hth] at hc
    rcases hc with hc | hc <;> cases hc
  · rw [St.destroys, hdestroyed, hzero]
  · rw [hcount, hheld]
  · omega
  · omega

theorem inv_reach (h₀ : s₀.New) (hs : (sys s₀).Reach Fits s) : Inv s := by
  refine hs.invariant (fun s hi => ?_) fun s l s' h hfits hstep => (h.step hfits hstep).1
  obtain rfl : s = s₀ := hi
  exact .new h₀

/-- **In every run `Destroy` is called once, by the `DropRef` that gives up the last references, and
never while a reference is held.** -/
theorem refCount_correct (h₀ : s₀.New) (hs : (sys s₀).Reach Fits s) : Correct s := by
  have h := inv_reach h₀ hs
  have hle : s.destroyed ≤ s.destroys := Nat.le_add_right _ _
  refine ⟨?_, fun th hth hpc => ?_, fun hone => ?_, fun hne => ?_, fun h0 hidle => ?_,
    fun l s' hfits hstep => (h.step hfits hstep).2.1⟩
  · rcases h.counter with ⟨hd, -⟩ | ⟨hd, -⟩ <;> omega
  · have hpos : 0 < s.threads.countP Thread.atDestroy :=
      List.countP_pos_iff.mpr ⟨th, hth, decide_eq_true hpc⟩
    rcases h.counter with ⟨hd, -⟩ | ⟨-, h0⟩
    · rw [St.destroys] at hd
      omega
    · exact h0
  · rcases h.counter with ⟨hd, -⟩ | ⟨-, h0⟩
    · omega
    · exact h0
  · exact (h.lives (Nat.pos_of_ne_zero hne)).2.1
  · have hzero : s.threads.countP Thread.atDestroy = 0 :=
      List.countP_eq_zero.mpr fun th hth => by simp [Thread.atDestroy, hidle th hth]
    rcases h.counter with ⟨-, -, hpos, -⟩ | ⟨hd, -⟩
    · omega
    · rw [St.destroys] at hd
      omega

/-- A value with an owner, and another thread. -/
def fresh : St := ⟨1, [⟨1, .idle⟩, ⟨0, .idle⟩], 0⟩

/-- Three references, one of them handed over. The other thread drops its one between the call of
`DropRef(2)` and its load, which then finds all references. -/
def fastPath : List Label :=
  [.addRef 0 2, .give 0 1 1, .dropRef 0 2, .dropRef 1 1, .step 1, .step 1, .step 0, .step 0]

theorem refCount_correct_fastPath : ∃ s, s.destroyed = 1 ∧ s.mRefCount = 2 ∧ Correct s := by
  have hr : ∀ s, runLabels (guarded step Fits) fresh fastPath = some s → Correct s := fun s h =>
    refCount_correct (by decide) (reach_guarded (.init rfl) fastPath h)
  exact ⟨_, rfl, rfl, hr _ rfl⟩

end RefCount

end AsyncLib
