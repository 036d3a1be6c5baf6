import AsyncLib.Concurrent.TaskDequeEmpty

/-!
# `TaskDeque::CalculateSize`

"So the computed size can be up to kCapacity + 1", says the comment above its assertion. A pop
empties its slot before it stores its index, and a single pop has emptied one slot. `PopBackHalf`
has emptied up to 512 slots before it stores `mBack`, and the owner can push into all of them.

* `Near`: the indices are at most `kCapacity + 1` apart. Only a push extends the distance.
* `Sparing`: the owner does not push into a slot that `PopBackHalf` has emptied above `mBack`, and
  no probe compares a `mFront` that has gone all the way round.
* `size_assertion`: in a run of such steps no assertion fails.
* `not_size_assertion`: three pushes, `PopBackHalf` before its last store, 1023 pushes, and `Size`
  finds the indices 1026 apart.
-/

namespace AsyncLib

namespace TaskDeque

namespace Threads

open Sys

variable {τ : Type}

variable {s s' : St τ} {t : Tid} {v : View τ} {l : Label τ}

/-- The step `l` runs `CalculateSize`, and its assertion fails. -/
def AssertionFails (s : St τ) : Label τ → Prop
  | .move t =>
    match s.pc t with
    | .sizeFront1 _ _ front back => s.d.mFront = front ∧ calculateSize front back = none
    | _ => False
  | .call _ _ => False

/-- The slot of `w` is none of those that `h` has emptied, but for the lowest. -/
def Half.Spares (h : Half τ) (mBack w : Word) : Prop :=
  ∀ j < (h.start - mBack).toNat, slot w ≠ slot (mBack + BitVec.ofNat 32 (j + 1))

instance (h : Half τ) (mBack w : Word) : Decidable (h.Spares mBack w) :=
  inferInstanceAs (Decidable (∀ j < (h.start - mBack).toNat, _))

/-- The lock holder is not a `PopBackHalf` that has emptied its slots, or it spares this one. -/
def Pc.Spares (mBack w : Word) : Pc τ → Prop
  | .halfIndex h => h.Spares mBack w
  | _ => True

instance (mBack w : Word) (pc : Pc τ) : Decidable (pc.Spares mBack w) := by
  cases pc
  case halfIndex h => exact inferInstanceAs (Decidable (h.Spares mBack w))
  all_goals exact .isTrue trivial

/-- What the next step of a thread must not do. -/
def Pc.Sparing (s : St τ) : Pc τ → Prop
  | .pushIndex .front _ w => s.holder.Spares s.d.mBack w
  | .sizeFront1 _ g front _ =>
    s.d.mFront = front → s.log.ups - g.ups < 2 ^ 21 ∧ s.log.downs - g.downs ≤ 512
  | _ => True

instance (s : St τ) (pc : Pc τ) : Decidable (pc.Sparing s) := by
  cases pc
  case pushIndex e task w =>
    cases e with
    | front => exact inferInstanceAs (Decidable (s.holder.Spares s.d.mBack w))
    | back => exact .isTrue trivial
  case sizeFront1 k g front back =>
    exact inferInstanceAs (Decidable (s.d.mFront = front →
      s.log.ups - g.ups < 2 ^ 21 ∧ s.log.downs - g.downs ≤ 512))
  all_goals exact .isTrue trivial

/-- While `PopBackHalf` has emptied its slots and not stored `mBack`, `PushFront` stores `mFront`
only for another slot, or for the lowest of them. `SizeOrNotEmpty` answers before `2^21` stores of
`mFront` by `PushFront`, or 513 by `PopFront`, since its call. -/
def Sparing (s : St τ) : Label τ → Prop
  | .move t => (s.pc t).Sparing s
  | .call _ _ => True

instance (s : St τ) (l : Label τ) : Decidable (Sparing s l) := by
  cases l with
  | move t => exact inferInstanceAs (Decidable ((s.pc t).Sparing s))
  | call t c => exact .isTrue trivial

/-- The index distance is at most `kCapacity + 1`. -/
def Near (mFront mBack : Word) : Prop :=
  ∃ (B : Int) (n : Nat), At mBack B ∧ At mFront (B + n) ∧ n ≤ kCapacity + 1

theorem Near.of_at {mFront mBack : Word} {F B : Int} (hB : At mBack B) (hF : At mFront F)
    (h1 : B ≤ F) (h2 : F ≤ B + (kCapacity + 1 : Nat)) : Near mFront mBack := by
  obtain ⟨n, rfl⟩ : ∃ n : Nat, F = B + n := ⟨(F - B).toNat, by omega⟩
  exact ⟨B, n, hB, hF, by omega⟩

theorem Near.calculateSize {front back : Word} (h : Near front back) :
    TaskDeque.calculateSize front back ≠ none := by
  obtain ⟨B, n, hB, hF, hn⟩ := h
  rw [calculateSize_of_at hF hB hn]
  exact nofun

/-- The store of `mFront` by `PushFront`. -/
theorem Near.pushFront (h : Inv s v) {task : τ} {w : Word} (hp : s.pc t = .pushIndex .front task w)
    (hok : Sparing s (.move t)) : Near (w + kIncrement) s.d.mBack := by
  obtain ⟨rfl, hat, -, x, hx⟩ := h.front_at hp rfl
  have hle := h.ring.le
  have htop : v.top = v.b + v.cells.length := rfl
  have hlen : v.backPart.length + 1 ≤ v.cells.length := by
    rw [View.cells_front hx]
    simp only [List.length_append, List.length_map, List.length_cons, List.length_nil]
    omega
  have hF : At (s.d.mFront + kIncrement) v.top := by
    have := hat.inc
    rwa [Int.sub_add_cancel] at this
  obtain ⟨B, hB, hB1, hB2, -⟩ := h.back.index
  rcases hB1 with hB1 | ⟨l, hl, -⟩
  · exact .of_at hB hF (by omega) (by omega)
  · -- `mBack` is `k + 1` below the cells; the push has not taken any of the upper `k` slots
    have hb := h.back
    rw [hl] at hb
    obtain ⟨k, hk, hstart, hatB, -, -⟩ := hb
    have hspares : l.Spares s.d.mBack s.d.mFront := by
      simpa only [Sparing, hp, Pc.Sparing, hl, Pc.Spares] using hok
    have hk' : (l.start - s.d.mBack).toNat = k := by
      rw [hstart, BitVec.toNat_sub, BitVec.toNat_add, BitVec.toNat_ofNat]
      omega
    refine .of_at hatB hF (by omega) (Classical.not_not.mp fun hfar => ?_)
    unfold kCapacity at hle hfar
    obtain ⟨j, hj⟩ : ∃ j : Nat,
        v.top - 1 - (kCapacity : Nat) = v.b - (k + 1 : Nat) + (j + 1 : Nat) :=
      ⟨(v.top - 1 - kCapacity - (v.b - k)).toNat, by unfold kCapacity; omega⟩
    refine hspares j (by unfold kCapacity at hj; omega) ?_
    have hlap : Ring.slot kCapacity (v.top - 1 - (kCapacity : Nat) + (kCapacity : Nat)) = _ :=
      Ring.slot_lap _
    rw [Int.sub_add_cancel] at hlap
    rw [hat.slot, (hatB.add (j + 1)).slot, ← hj, hlap]

/-- A store of `mBack` puts it at the cells. -/
theorem Near.back (h : Inv s v) {mBack : Word} (hB : At mBack v.b) : Near s.d.mFront mBack := by
  obtain ⟨F, hF, hF1, hF2⟩ := h.front.index
  have hle := h.ring.le
  have hhi := View.hi_eq v
  refine .of_at hB hF ?_ ?_
  · rw [← hhi] at hF2
    unfold View.hi View.lo at hF2
    omega
  · unfold View.top at hF1
    omega

/-- The store of `mFront` by `PopFront`. -/
theorem Near.popFront (h : Inv s v) {task : τ} {w : Word} (hp : s.pc t = .popIndex .front w task)
    (hn : Near s.d.mFront s.d.mBack) : Near (dec w) s.d.mBack := by
  obtain ⟨rfl, hat, -, hpart⟩ := h.front_at hp rfl
  obtain ⟨B, n, hB, hF, hn⟩ := hn
  obtain ⟨B', hB', hB1, hB2, -⟩ := h.back.index
  have hB1 : v.b - 512 ≤ B' := hB1.elim (by omega) fun ⟨_, _, h⟩ => h
  have hle := h.ring.le
  have htop : v.top = v.b + v.cells.length := rfl
  have hlen : v.backPart.length ≤ v.cells.length := by
    simp [View.cells]
  unfold kCapacity at hle hn
  have hF' := hF.dec
  -- the distance is not zero: the front is one above the cells
  have hpos : 1 ≤ n := by
    unfold At at hat hF hB hB'
    omega
  exact .of_at hB hF' (by omega) (by unfold kCapacity; omega)

/-- The indices and the record of the stores to `mFront` stay. -/
def IndexStay (s s' : St τ) : Prop :=
  s'.d.mFront = s.d.mFront ∧ s'.d.mBack = s.d.mBack ∧ s'.log.ups = s.log.ups ∧
    s'.log.downs = s.log.downs

/-- What a step does to the two indices. -/
theorem move_index {leave : τ → τ} (hmv : Threads.move leave s t = some s') :
    IndexStay s s' ∨
    (∃ e task w, s.pc t = .pushIndex e task w ∧ s'.d = e.store s.d (e.pushed w) ∧
      s'.log = e.countPush s.log) ∨
    (∃ e w task, s.pc t = .popIndex e w task ∧ s'.d = e.store s.d (e.popped w) ∧
      s'.log = { e.countPop s.log with popped := s.log.popped ++ [task] }) ∨
    ∃ h, s.pc t = .halfIndex h ∧ s'.d = { s.d with mBack := h.start + kIncrement } ∧
      s'.log = { s.log with popped := s.log.popped ++ h.result } := by
  cases hp : s.pc t
  case idle => simp [Threads.move, hp] at hmv
  case sizeFront1 k g front back =>
    simp only [Threads.move, hp] at hmv
    split_ifs at hmv
    · cases hmv
      exact .inl ⟨rfl, rfl, rfl, rfl⟩
    · cases hmv
      cases k <;> exact .inl ⟨rfl, rfl, rfl, rfl⟩
  case pushIndex e task w =>
    simp only [Threads.move, hp, Option.some.injEq] at hmv
    subst hmv
    exact .inr (.inl ⟨e, task, w, rfl, rfl, rfl⟩)
  case popIndex e w task =>
    simp only [Threads.move, hp, Option.some.injEq] at hmv
    subst hmv
    exact .inr (.inr (.inl ⟨e, w, task, rfl, rfl, rfl⟩))
  case halfIndex h =>
    simp only [Threads.move, hp, Option.some.injEq] at hmv
    subst hmv
    exact .inr (.inr (.inr ⟨h, rfl, rfl, rfl⟩))
  case lock c =>
    simp only [Threads.move, hp] at hmv
    split at hmv
    · cases hmv
      exact .inl ⟨rfl, rfl, rfl, rfl⟩
    · cases hmv
  -- no other control point stores an index
  all_goals
    simp only [Threads.move, hp] at hmv
    try split_ifs at hmv
  all_goals
    cases hmv
    exact .inl ⟨rfl, rfl, rfl, rfl⟩

theorem End.leave_ne (e : End) {k : Probe} {g : Since} {front back : Word} :
    (e.leave : Pc τ) ≠ .sizeFront1 k g front back := by
  cases e <;> exact nofun

theorem Half.next_ne (h : Half τ) {k : Probe} {g : Since} {front back : Word} :
    h.next ≠ .sizeFront1 k g front back := by
  unfold Half.next
  split_ifs <;> exact nofun

/-- Only the moving thread changes its place, and it comes to compare `mFront` from a load of
`mBack`, or from there after another value of `mFront`. -/
theorem move_pc {leave : τ → τ} (hmv : Threads.move leave s t = some s') :
    ∃ pc, s'.pc = Function.update s.pc t pc ∧ ∀ k g front back, pc = .sizeFront1 k g front back →
      s.pc t = .sizeBack k g front ∧ back = s.d.mBack := by
  cases hp : s.pc t
  case idle => simp [Threads.move, hp] at hmv
  case sizeBack k g front =>
    simp only [Threads.move, hp, Option.some.injEq] at hmv
    subst hmv
    refine ⟨_, rfl, fun k' g' front' back' h => ?_⟩
    cases h
    exact ⟨rfl, rfl⟩
  case sizeFront1 k g front back =>
    simp only [Threads.move, hp] at hmv
    split_ifs at hmv
    · cases hmv
      exact ⟨_, rfl, fun _ _ _ _ h => by cases h⟩
    · cases hmv
      cases k with
      | size => exact ⟨_, rfl, fun _ _ _ _ h => by cases h⟩
      | empty => exact ⟨_, rfl, fun _ _ _ _ h => by cases h⟩
      | half w =>
        exact ⟨_, rfl, fun _ _ _ _ h => absurd h (Half.next_ne _)⟩
      | popBack =>
        refine ⟨_, rfl, fun _ _ _ _ h => ?_⟩
        split at h <;> cases h
      | popBackHalf =>
        refine ⟨_, rfl, fun _ _ _ _ h => ?_⟩
        split at h <;> cases h
  case lock c =>
    simp only [Threads.move, hp] at hmv
    split at hmv
    · cases hmv
      refine ⟨_, rfl, fun _ _ _ _ h => ?_⟩
      cases c <;> cases h
    · cases hmv
  -- the others go on to a control point that their constructor names, to that after an operation
  -- or to the next round of `PopBackHalf`
  all_goals
    simp only [Threads.move, hp] at hmv
    try split_ifs at hmv
  all_goals
    cases hmv
    refine ⟨_, rfl, fun _ _ _ _ h => ?_⟩
    first
      | cases h
      | exact absurd h (End.leave_ne _)
      | exact absurd h (Half.next_ne _)

/-- The distance stays within its bound. -/
theorem Near.step {leave : τ → τ} (h : Near s.d.mFront s.d.mBack) (hI : Inv s v)
    (hok : Sparing s l) (hs : Threads.step leave s l = some s') :
    Near s'.d.mFront s'.d.mBack := by
  obtain ⟨s₁, hact, rfl⟩ := Option.map_eq_some_iff.mp hs
  show Near s₁.d.mFront s₁.d.mBack
  cases l with
  | call t c =>
    simp only [act] at hact
    split at hact
    · obtain ⟨pc, -, rfl⟩ := Option.map_eq_some_iff.mp hact
      exact h
    · cases hact
  | move t =>
    rcases move_index hact with ⟨hf, hb, -⟩ | ⟨e, task, w, hp, hd, -⟩ | ⟨e, w, task, hp, hd, -⟩ |
      ⟨l, hp, hd, -⟩
    · rw [hf, hb]
      exact h
    · rw [hd]
      cases e with
      | front =>
        simp only [End.store, End.pushed]
        exact .pushFront hI hp hok
      | back =>
        obtain ⟨-, hat, -⟩ := hI.back_at hp rfl
        have := hat.dec
        rw [Int.add_sub_cancel] at this
        exact .back hI this
    · rw [hd]
      cases e with
      | front =>
        simp only [End.store, End.popped]
        exact .popFront hI hp h
      | back =>
        obtain ⟨-, hat, -⟩ := hI.back_at hp rfl
        have := hat.inc
        rw [Int.sub_add_cancel] at this
        simp only [End.store, End.popped]
        exact .back hI this
    · rw [hd]
      obtain ⟨k, -, hstart, hat, -⟩ := hI.back_at hp rfl
      have := (hat.add k).inc
      rw [show v.b - ((k + 1 : Nat) : Int) + k + 1 = v.b by omega, ← hstart] at this
      exact .back hI this

/-! ## The probes -/

/-- What is known of a thread that compares `mFront` again: its two words are near each other if
no store to `mFront` came between. -/
def Snapshot (s : St τ) : Pc τ → Prop
  | .sizeFront1 _ g front back => ∃ m r, Drift s g front m r ∧ (m = 0 → r = 0 → Near front back)
  | _ => True

theorem Snapshot.frame {pc : Pc τ} (h : Snapshot s pc) (hf : FrontMove s s') : Snapshot s' pc := by
  unfold Snapshot at h ⊢
  split at h
  · obtain ⟨m, r, hd, hn⟩ := h
    obtain ⟨m', r', hd', hm, hr⟩ := hf.drift hd
    exact ⟨m', r', hd', fun hm0 hr0 => hn (hm hm0) (hr hr0)⟩
  · trivial

/-- Every step moves `mFront` in one of three ways. -/
theorem frontMove_of_move {leave : τ → τ} (hI : Inv s v)
    (hmv : Threads.move leave s t = some s') : FrontMove s s' := by
  rcases move_index hmv with ⟨hf, -, hu, hd⟩ | ⟨e, task, w, hp, hd, hlog⟩ |
    ⟨e, w, task, hp, hd, hlog⟩ | ⟨l, hp, hd, hlog⟩
  · exact .inl ⟨hf, hu, hd⟩
  · cases e with
    | front =>
      obtain ⟨rfl, -⟩ := hI.front_at hp rfl
      refine .inr (.inl ⟨?_, by rw [hlog]; rfl, by rw [hlog]; rfl⟩)
      rw [hd]
      simp only [End.store, End.pushed]
    | back => exact .inl ⟨by rw [hd, End.store], by rw [hlog]; rfl, by rw [hlog]; rfl⟩
  · cases e with
    | front =>
      obtain ⟨rfl, -⟩ := hI.front_at hp rfl
      exact .inr (.inr ⟨by rw [hd]; rfl, by rw [hlog]; rfl, by rw [hlog]; rfl⟩)
    | back => exact .inl ⟨by rw [hd, End.store], by rw [hlog]; rfl, by rw [hlog]; rfl⟩
  · exact .inl ⟨by rw [hd], by rw [hlog], by rw [hlog]⟩

/-- `mFront` is the loaded word if it has not been stored since. -/
theorem Drift.front_eq {g : Since} {front : Word} (h : Drift s g front 0 0) :
    s.d.mFront = front := by
  obtain ⟨-, -, c, q, hc, hcr, he⟩ := h
  have h1 := s.d.mFront.isLt
  have h2 := front.isLt
  rw [← BitVec.toNat_inj]
  omega

/-- The indices, and all threads in `SizeOrNotEmpty`. -/
structure Sized (s : St τ) : Prop where
  near : Near s.d.mFront s.d.mBack
  probes : ∀ t, Snapshot s (s.pc t)

theorem Sized.step {leave : τ → τ} (h : Sized s) (hI : Inv s v) (hP : Probed s)
    (hok : Sparing s l) (hs : Threads.step leave s l = some s') : Sized s' := by
  refine ⟨h.near.step hI hok hs, fun u => ?_⟩
  obtain ⟨s₁, hact, rfl⟩ := Option.map_eq_some_iff.mp hs
  cases l with
  | call t c =>
    simp only [act] at hact
    split at hact
    · obtain ⟨pc, hpc, rfl⟩ := Option.map_eq_some_iff.mp hact
      show Snapshot _ (Function.update s.pc t pc u)
      by_cases hu : u = t
      · rw [hu, Function.update_self]
        cases c
        case pushFront =>
          simp only [Call.entry, Option.ite_none_right_eq_some, Option.some.injEq] at hpc
          obtain ⟨-, rfl⟩ := hpc
          trivial
        case popFront =>
          simp only [Call.entry, Option.ite_none_right_eq_some, Option.some.injEq] at hpc
          obtain ⟨-, rfl⟩ := hpc
          trivial
        all_goals
          cases hpc
          trivial
      · rw [Function.update_of_ne hu]
        exact (h.probes u).frame (.inl ⟨rfl, rfl, rfl⟩)
    · cases hact
  | move t =>
    obtain ⟨pc, hpc, hcmp⟩ := move_pc hact
    have hfront : FrontMove s s₁ := frontMove_of_move hI hact
    have hfront : FrontMove s s₁.tick := hfront
    show Snapshot _ (s₁.pc u)
    rw [hpc]
    by_cases hu : u = t
    · rw [hu, Function.update_self]
      unfold Snapshot
      split
      case h_1 k g front back =>
        -- the load of `mBack`: both words are from one instant if `mFront` is still the same
        obtain ⟨hp, rfl⟩ := hcmp _ _ _ _ rfl
        have hpr := hP.probes t
        rw [hp] at hpr
        obtain ⟨-, m, r, hd⟩ := hpr
        obtain ⟨m', r', hd', hm, hr⟩ := hfront.drift hd
        refine ⟨m', r', hd', fun hm0 hr0 => ?_⟩
        rw [hm hm0, hr hr0] at hd
        rw [← hd.front_eq]
        exact h.near
      · trivial
    · rw [Function.update_of_ne hu]
      exact (h.probes u).frame hfront

theorem sized_of_reach [Inhabited τ] {leave : τ → τ} (hs : (sys leave).Reach Sparing s) :
    Sized s := by
  refine hs.invariant_of (J := fun s => (∃ v, Inv s v) ∧ Probed s)
    (fun s h => ?_) ?_ ?_
  · have hany : (sys leave).Reach Any s := h.mono fun _ _ _ => trivial
    exact ⟨inv_of_reach hany, probed_of_reach hany⟩
  · rintro s rfl
    refine ⟨?_, fun _ => trivial⟩
    exact .of_at (B := 0) (F := 0) rfl rfl (by omega) (by omega)
  · rintro s l s' ⟨⟨v, hI⟩, hP⟩ h hok hn
    exact h.step hI hP hok hn

/-- **The assertion of `CalculateSize` does not fail**, in any run in which the owner does not push
into the slots that a `PopBackHalf` has emptied before it has stored `mBack`, the lowest apart, and
no probe compares a `mFront` that has come all the way round. -/
theorem size_assertion [Inhabited τ] (leave : τ → τ) (s : St τ) (l : Label τ)
    (hs : (sys leave).Reach Sparing s) (hok : Sparing s l) : ¬ AssertionFails s l := by
  intro hfail
  unfold AssertionFails at hfail
  split at hfail
  case h_1 t =>
    split at hfail
    case h_1 k g front back hp =>
      obtain ⟨rfl, hnone⟩ := hfail
      have hpr := (sized_of_reach hs).probes t
      rw [hp] at hpr
      obtain ⟨m, r, hd, hnear⟩ := hpr
      simp only [Sparing, hp] at hok
      obtain ⟨h1, h2⟩ := hok rfl
      -- the same word again: `mFront` was not stored in between
      obtain ⟨hm, hr⟩ := hd.eq_zero (by have := hd.1; omega) (by have := hd.2.1; omega)
      exact (hnear hm hr).calculateSize hnone
    · exact hfail
  · exact hfail

/-- A call of `PushFront`. -/
def pushFrontRun (task : τ) : List (Label τ) :=
  .call owner (.pushFront task) :: List.replicate 6 (.move owner)

/-- A call of `PopBackHalf` by thread 1, and `n` steps of it. -/
def popBackHalfRun (n : Nat) : List (Label τ) := .call 1 .popBackHalf :: List.replicate n (.move 1)

/-- Three pushes, a `PopBackHalf` that has emptied its two slots and not stored `mBack`, a push, and
`Size`. -/
def sparingRun : List (Label Nat) :=
  pushFrontRun 7 ++ pushFrontRun 8 ++ pushFrontRun 9 ++ popBackHalfRun 15 ++ pushFrontRun 10 ++
    [.call 2 .size, .move 2, .move 2]

/-- The state after `sparingRun`. -/
def sparingState : St Nat := (runLabels (guarded (step id) Sparing) start sparingRun).getD start

theorem size_assertion_sparing : Sparing sparingState (.move 2) ∧
    ¬ AssertionFails sparingState (.move 2) :=
  ⟨by decide, size_assertion id sparingState (.move 2)
    (reach_guarded (.init rfl) sparingRun (by rfl)) (by decide)⟩

/-! ## A deque that looks too large -/

variable {s : St Unit} {d : TaskDeque Unit} {p₀ : Pc Unit}

/-- Thread 1 has emptied its slots and holds the lock, and thread 2 has made no call. -/
structure Behind (s : St Unit) (d : TaskDeque Unit) (p₀ : Pc Unit) : Prop where
  reach : (sys id).Reach Any s
  d : s.d = d
  mMutex : s.mMutex = some 1
  owner : s.pc 0 = p₀
  probe : s.pc 2 = .idle

/-- One step of the owner. -/
theorem Behind.next (h : Behind s d p₀) {l : Label Unit} (d' : TaskDeque Unit) (p₀' : Pc Unit)
    (g : Log Unit) (hact : act id s l = some ⟨d', some 1, Function.update s.pc 0 p₀', g⟩) :
    ∃ s', Behind s' d' p₀' :=
  ⟨(St.mk d' (some 1) (Function.update s.pc 0 p₀') g).tick,
    .step h.reach trivial (show (act id s l).map St.tick = _ by rw [hact]; rfl), rfl, rfl, rfl,
    h.probe⟩

/-- `PushFront` into an empty slot. -/
theorem Behind.pushFront (h : Behind s d .idle) {j : Fin kCapacity} (hj : slot d.mFront = j)
    (he : (d.mArray j).state = .kEmpty) :
    ∃ s', Behind s' ⟨d.mFront + kIncrement, d.mBack, Function.update d.mArray j ⟨.kReady, ()⟩⟩
      .idle := by
  obtain ⟨s₁, h₁⟩ := h.next (l := .call 0 (.pushFront ())) d (.pushLoad .front ()) s.log
    (by simp [act, h.owner, h.d, h.mMutex, Call.entry, Threads.owner, St.goto])
  obtain ⟨s₂, h₂⟩ := h₁.next (l := .move 0) d (.pushState .front () d.mFront) s₁.log
    (by simp [act, Threads.move, h₁.owner, h₁.mMutex, h₁.d, End.index, St.goto])
  obtain ⟨s₃, h₃⟩ := h₂.next (l := .move 0) d (.pushCas .front () d.mFront) s₂.log
    (by simp [act, Threads.move, h₂.owner, h₂.mMutex, h₂.d, End.pushSlot, hj, he, St.goto])
  obtain ⟨s₄, h₄⟩ := h₃.next (l := .move 0) (write d j ⟨.kBusy, ()⟩)
    (.pushIndex .front () d.mFront) s₃.log
    (by simp [act, Threads.move, h₃.owner, h₃.mMutex, h₃.d, End.pushSlot, hj, he, St.goto])
  obtain ⟨s₅, h₅⟩ := h₄.next (l := .move 0)
    ⟨d.mFront + kIncrement, d.mBack, Function.update d.mArray j ⟨.kBusy, ()⟩⟩
    (.pushMove .front () d.mFront) { s₄.log with ups := s₄.log.ups + 1 }
    (by simp [act, Threads.move, h₄.owner, h₄.mMutex, h₄.d, End.store, End.pushed, End.countPush,
      write, St.goto])
  obtain ⟨s₆, h₆⟩ := h₅.next (l := .move 0)
    ⟨d.mFront + kIncrement, d.mBack, Function.update d.mArray j ⟨.kBusy, ()⟩⟩
    (.pushStore .front () d.mFront) s₅.log
    (by simp [act, Threads.move, h₅.owner, h₅.mMutex, h₅.d, End.pushSlot, hj, write, St.goto])
  exact h₆.next (l := .move 0)
    ⟨d.mFront + kIncrement, d.mBack, Function.update d.mArray j ⟨.kReady, ()⟩⟩ .idle
    { s₆.log with pushed := s₆.log.pushed ++ [()] }
    (by simp [act, Threads.move, h₆.owner, h₆.mMutex, h₆.d, End.pushSlot, End.leave, hj, write,
      St.goto])

/-- `n` pushes, if the slots from the front on are empty. -/
theorem Behind.pushes {p : Int} (h : Behind s d .idle) (hat : At d.mFront p) (n : Nat)
    (hn : n ≤ kCapacity)
    (he : ∀ i < n, (d.mArray (Ring.slot kCapacity (p + i))).state = .kEmpty) :
    ∃ s' d', Behind s' d' .idle ∧ At d'.mFront (p + n) ∧ d'.mBack = d.mBack ∧
      ∀ i : Nat, n ≤ i → i < kCapacity →
        d'.mArray (Ring.slot kCapacity (p + i)) = d.mArray (Ring.slot kCapacity (p + i)) := by
  induction n with
  | zero => exact ⟨s, d, h, by simpa using hat, rfl, fun _ _ _ => rfl⟩
  | succ n ih =>
    obtain ⟨s₁, d₁, h₁, hat₁, hback, harr⟩ := ih (by omega) fun i hi => he i (by omega)
    obtain ⟨s₂, h₂⟩ := h₁.pushFront hat₁.slot (by
      rw [harr n le_rfl (by omega)]
      exact he n (by omega))
    refine ⟨s₂, _, h₂, ?_, hback, fun i hi hlt => ?_⟩
    · have := hat₁.inc
      rwa [show p + (n : Int) + 1 = p + (n + 1 : Nat) by omega] at this
    · rw [← harr i (by omega) hlt]
      exact Function.update_of_ne (Ring.slot_ne (by omega) (by omega) (by omega)) _ _

/-- The run up to the last store of `PopBackHalf`. -/
def halfRun : List (Label Unit) :=
  pushFrontRun () ++ pushFrontRun () ++ pushFrontRun () ++ popBackHalfRun 15

/-- The state after `halfRun`. -/
def halfState : St Unit := (runLabels (step id) start halfRun).getD start

/-- The writes of the run to the slots. -/
def halfWrites : List (Fin kCapacity × SlotState) :=
  [(0, .kBusy), (0, .kBusy), (0, .kReady), (1, .kBusy), (1, .kBusy), (1, .kReady), (2, .kBusy),
    (2, .kBusy), (2, .kReady), (1, .kBusy), (1, .kBusy), (1, .kEmpty), (0, .kReady), (0, .kEmpty)]

theorem halfState_mArray : halfState.d.mArray =
    halfWrites.foldl (fun f x => Function.update f x.1 ⟨x.2, ()⟩) fun _ => ⟨.kEmpty, ()⟩ := rfl

/-- Only position 2 is left. -/
theorem halfState_empty {i : Fin kCapacity} (hi : i ≠ 2) :
    (halfState.d.mArray i).state = .kEmpty := by
  rw [halfState_mArray]
  simp only [halfWrites, List.foldl_cons, List.foldl_nil]
  by_cases h0 : i = 0
  · rw [h0, Function.update_self]
  · by_cases h1 : i = 1
    · rw [h1, Function.update_of_ne (by decide), Function.update_of_ne (by decide),
        Function.update_self]
    · simp only [Function.update_of_ne h0, Function.update_of_ne h1, Function.update_of_ne hi]

/-- **The assertion of `CalculateSize` fails**: `PopBackHalf` has emptied the slots of positions 0
and 1, and the owner has pushed up to position 1025. -/
theorem not_size_assertion :
    ¬ ∀ (s : St Unit) (l : Label Unit), (sys id).Reach Any s → ¬ AssertionFails s l := by
  have h₀ : Behind halfState halfState.d .idle :=
    ⟨reach_runLabels (fun _ => True) (.init rfl) halfRun (fun _ _ => trivial) rfl, rfl, rfl, rfl,
      rfl⟩
  have hfront : At halfState.d.mFront 3 := by
    show (halfState.d.mFront.toNat : Int) % 2048 = 3 % 2048
    rfl
  obtain ⟨s₁, d₁, h₁, hat, hback, -⟩ := h₀.pushes hfront 1023 (by decide) fun i hi =>
    halfState_empty (by
      rw [show (2 : Fin kCapacity) = Ring.slot kCapacity 2 from rfl]
      exact Ring.slot_ne (by omega) (by unfold kCapacity; omega) (by unfold kCapacity; omega))
  -- `Size` by thread 2: the indices are 1026 apart
  have hnone : calculateSize d₁.mFront d₁.mBack = none :=
    calculateSize_none_of_at (b := 0) (n := 1026) hat (by rw [hback]; rfl) (by decide) (by decide)
  obtain ⟨s₂, hs₂⟩ : ∃ s₂, s₂ = (s₁.goto 2 (.sizeFront .size s₁.log.now)).tick := ⟨_, rfl⟩
  obtain ⟨s₃, hs₃⟩ : ∃ s₃, s₃ = (s₂.goto 2 (.sizeBack .size s₁.log.now d₁.mFront)).tick := ⟨_, rfl⟩
  obtain ⟨s₄, hs₄⟩ : ∃ s₄, s₄ =
    (s₃.goto 2 (.sizeFront1 .size s₁.log.now d₁.mFront d₁.mBack)).tick := ⟨_, rfl⟩
  have hr₂ : (sys id).Reach Any s₂ := by
    refine .step h₁.reach trivial (l := .call 2 .size) ?_
    show (act id s₁ (.call 2 .size)).map St.tick = _
    simp [act, h₁.probe, Call.entry, hs₂]
  have hr₃ : (sys id).Reach Any s₃ := by
    refine .step hr₂ trivial (l := .move 2) ?_
    show (Threads.move id s₂ 2).map St.tick = _
    simp [Threads.move, hs₃, hs₂, St.goto, St.tick, h₁.d]
  have hr₄ : (sys id).Reach Any s₄ := by
    refine .step hr₃ trivial (l := .move 2) ?_
    show (Threads.move id s₃ 2).map St.tick = _
    simp [Threads.move, hs₄, hs₃, hs₂, St.goto, St.tick, h₁.d]
  refine fun hall => hall s₄ (.move 2) hr₄ ?_
  simp only [AssertionFails, hs₄, hs₃, hs₂, St.tick, St.goto, Function.update_self, h₁.d]
  exact ⟨trivial, hnone⟩

end Threads

end TaskDeque

end AsyncLib
