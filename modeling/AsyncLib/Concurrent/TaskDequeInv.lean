import Mathlib.Data.List.Perm.Subperm
import AsyncLib.Concurrent.TaskDequeThreads

/-!
# `TaskDeque` under any interleaving: no task is lost

From some position on, the ring holds the cells of the lock holder, then the tasks that wait, then
the cell of the owner, and nothing else (`Inv`, over a `View` of the ring). Every operation claims a
cell next to the tasks that wait, and moves its index before (push) or after (pop) it has worked on
the cell, so `mBack` is never above and `mFront` never below the tasks that wait.

* `FrontOk`, `BackOk`: the cell of the owner, the cells of the lock holder, and the index of that
  end.
* `Inv.front_step`, `Inv.back_step`: a step at one end leaves the other end alone.
* `deque_correct`: what holds in every reachable state.
-/

namespace AsyncLib

namespace TaskDeque

namespace Threads

open Sys

variable {τ : Type}

/-! ## The invariant of the ring -/

/-- The cell of a task that is ready. -/
def ready (x : τ) : Elem τ := ⟨.kReady, x⟩

/-- The control points of the front operations. -/
def Pc.atFront : Pc τ → Bool
  | .pushLoad .front _ | .pushState .front _ _ | .pushCas .front _ _ | .pushIndex .front _ _
  | .pushMove .front _ _ | .pushStore .front _ _ | .popLoad .front | .popState .front _
  | .popCas .front _ | .popMove .front _ | .popStore .front _ _ | .popIndex .front _ _ => true
  | _ => false

/-- The control points under `mMutex`. -/
def Pc.locked : Pc τ → Bool
  | .pushLoad .back _ | .pushState .back _ _ | .pushCas .back _ _ | .pushIndex .back _ _
  | .pushMove .back _ _ | .pushStore .back _ _ | .popLoad .back | .popState .back _
  | .popCas .back _ | .popMove .back _ | .popStore .back _ _ | .popIndex .back _ _
  | .sizeFront (.half _) _ | .sizeBack (.half _) _ _ | .sizeFront1 (.half _) _ _ _ | .halfLoad
  | .halfState _ | .halfCas _ | .halfMove _ | .halfStore _ | .halfIndex _ | .unlock => true
  | _ => false

/-- The owner's cell above the ready tasks is `part`, and `hand` is the task that it has claimed.
`top` is the position above that cell. -/
def FrontOk (mFront : Word) (top : Int) (part : List (Elem τ)) (hand : List τ) : Pc τ → Prop
  | .pushState .front _ w | .pushCas .front _ w | .popState .front w | .popCas .front w =>
    w = mFront ∧ At mFront top ∧ part = [] ∧ hand = []
  | .pushIndex .front _ w => w = mFront ∧ At w (top - 1) ∧ hand = [] ∧ ∃ x, part = [⟨.kBusy, x⟩]
  | .pushMove .front _ w => At mFront top ∧ At w (top - 1) ∧ hand = [] ∧ ∃ x, part = [⟨.kBusy, x⟩]
  | .pushStore .front task w =>
    At mFront top ∧ At w (top - 1) ∧ hand = [] ∧ part = [⟨.kBusy, task⟩]
  | .popMove .front w => w = mFront ∧ At w top ∧ ∃ x, hand = [x] ∧ part = [⟨.kBusy, x⟩]
  | .popStore .front w task => w = mFront ∧ At w top ∧ hand = [task] ∧ ∃ x, part = [⟨.kBusy, x⟩]
  | .popIndex .front w task => w = mFront ∧ At w (top + 1) ∧ hand = [task] ∧ part = []
  | _ => At mFront top ∧ part = [] ∧ hand = []

/-- The loop of `PopBackHalf` before it has claimed a slot. -/
structure Half.Unclaimed (h : Half τ) (mBack : Word) (b : Int) : Prop where
  back : h.back = mBack
  at_back : At mBack b
  mid : ∃ k, k < 512 ∧ h.mid = mBack + BitVec.ofNat 32 k
  result : h.result = []

/-- The loop of `PopBackHalf` after its first exchange: the slots from the back on hold `rs`, then
at `mid` the cell `e`, then empty cells up to `start`. -/
structure Half.Claimed (h : Half τ) (mBack : Word) (b : Int) (rs : List τ) (e : Elem τ)
    (holes : List (Elem τ)) : Prop where
  back : h.back = mBack
  at_back : At mBack b
  mid : h.mid = mBack + BitVec.ofNat 32 rs.length
  start : h.start = mBack + BitVec.ofNat 32 (rs.length + holes.length)
  lt : rs.length + holes.length < 512
  empty : ∀ c ∈ holes, c.state = .kEmpty
  state : e.state ≠ .kEmpty
  first : holes = [] → e.state ≠ .kReady

/-- The lock holder's cells below the ready tasks are `part`, from position `b` on, and `hand` are
the tasks that it has claimed. -/
def BackOk (mBack : Word) (b : Int) (part : List (Elem τ)) (hand : List τ) : Pc τ → Prop
  | .pushState .back _ w | .pushCas .back _ w | .popState .back w | .popCas .back w
  | .sizeFront (.half w) _ | .sizeBack (.half w) _ _ | .sizeFront1 (.half w) _ _ _ =>
    w = mBack ∧ At mBack b ∧ part = [] ∧ hand = []
  | .pushIndex .back _ w => w = mBack ∧ At w (b + 1) ∧ hand = [] ∧ ∃ x, part = [⟨.kBusy, x⟩]
  | .pushMove .back _ w => At mBack b ∧ At w (b + 1) ∧ hand = [] ∧ ∃ x, part = [⟨.kBusy, x⟩]
  | .pushStore .back task w => At mBack b ∧ At w (b + 1) ∧ hand = [] ∧ part = [⟨.kBusy, task⟩]
  | .popMove .back w => w = mBack ∧ At w b ∧ ∃ x, hand = [x] ∧ part = [⟨.kBusy, x⟩]
  | .popStore .back w task => w = mBack ∧ At w b ∧ hand = [task] ∧ ∃ x, part = [⟨.kBusy, x⟩]
  | .popIndex .back w task => w = mBack ∧ At w (b - 1) ∧ hand = [task] ∧ part = []
  | .halfState h =>
    if h.n = 0 then h.Unclaimed mBack b ∧ part = [] ∧ hand = []
    else ∃ rs x holes, h.Claimed mBack b rs (ready x) holes ∧
      part = rs.map ready ++ ready x :: holes ∧ hand = rs ++ x :: h.result
  | .halfCas h => h.n = 0 ∧ h.Unclaimed mBack b ∧ part = [] ∧ hand = []
  | .halfMove h => ∃ rs e holes, h.Claimed mBack b rs e holes ∧
      part = rs.map ready ++ e :: holes ∧ hand = rs ++ e.task :: h.result
  | .halfStore h => ∃ rs e holes, h.Claimed mBack b rs e holes ∧
      part = rs.map ready ++ e :: holes ∧ hand = rs ++ h.result
  | .halfIndex h => ∃ k, k < 512 ∧ h.start = mBack + BitVec.ofNat 32 k ∧
      At mBack (b - (k + 1 : Nat)) ∧ part = [] ∧ hand = h.result
  | _ => At mBack b ∧ part = [] ∧ hand = []

/-- The control point of the thread that holds `mMutex`. -/
def St.holder (s : St τ) : Pc τ :=
  match s.mMutex with
  | none => .idle
  | some t => s.pc t

/-- The slots of `arr` hold `cells` from position `b` on, and all others are empty. -/
abbrev Cells (arr : Fin kCapacity → Elem τ) (b : Int) (cells : List (Elem τ)) : Prop :=
  Ring.Holds (fun x e => e = x) (fun e => e.state = .kEmpty) arr b cells

/-- The cells of the ring, and the tasks that are neither waiting to be pushed nor returned. -/
structure View (τ : Type) where
  /-- The position of the lowest cell. -/
  b : Int
  /-- The cells of the lock holder, the tasks that wait, the cell of the owner. -/
  backPart : List (Elem τ)
  waiting : List τ
  frontPart : List (Elem τ)
  /-- The tasks that the lock holder and the owner have claimed. -/
  backHand : List τ
  frontHand : List τ

namespace View

/-- All cells, from the back to the front. -/
def cells (v : View τ) : List (Elem τ) := v.backPart ++ (v.waiting.map ready ++ v.frontPart)

/-- The position above the cells. -/
def top (v : View τ) : Int := v.b + v.cells.length

/-- The tasks that are pushed and not returned. -/
def tasks (v : View τ) : List τ := v.backHand ++ (v.waiting ++ v.frontHand)

end View

/-- The deque, the threads and the record agree (module doc). -/
structure Inv (s : St τ) (v : View τ) : Prop where
  ring : Cells s.d.mArray v.b v.cells
  front : FrontOk s.d.mFront v.top v.frontPart v.frontHand (s.pc owner)
  back : BackOk s.d.mBack v.b v.backPart v.backHand s.holder
  balance : s.log.pushed.Perm (s.log.popped ++ v.tasks)
  locked : ∀ t, (s.pc t).locked = true ↔ s.mMutex = some t
  atFront : ∀ t, (s.pc t).atFront = true → t = owner

variable {s s' : St τ} {t : Tid} {v v' : View τ}

theorem FrontOk.of_not_atFront {mFront : Word} {top : Int} {part : List (Elem τ)} {hand : List τ}
    {pc : Pc τ} (h : pc.atFront = false) :
    FrontOk mFront top part hand pc ↔ At mFront top ∧ part = [] ∧ hand = [] := by
  unfold FrontOk
  split
  all_goals first
    | rfl
    | (simp only [Pc.atFront, reduceCtorEq] at h)

theorem BackOk.of_not_locked {mBack : Word} {b : Int} {part : List (Elem τ)} {hand : List τ}
    {pc : Pc τ} (h : pc.locked = false) :
    BackOk mBack b part hand pc ↔ At mBack b ∧ part = [] ∧ hand = [] := by
  unfold BackOk
  split
  all_goals first
    | rfl
    | (simp only [Pc.locked, reduceCtorEq] at h)

theorem atFront_eq_false_of_locked {pc : Pc τ} (h : pc.locked = true) : pc.atFront = false := by
  unfold Pc.locked at h
  split at h <;> first | rfl | cases h

/-- Thread `t` has moved from `pc` to `pc'`. -/
structure Moved (s s' : St τ) (t : Tid) (pc pc' : Pc τ) : Prop where
  old : s.pc t = pc
  new : s'.pc = Function.update s.pc t pc'

theorem Moved.self {pc pc' : Pc τ} (h : Moved s s' t pc pc') : s'.pc t = pc' := by
  rw [h.new, Function.update_self]

theorem Moved.other {pc pc' : Pc τ} (h : Moved s s' t pc pc') {u : Tid} (hu : u ≠ t) :
    s'.pc u = s.pc u := by
  rw [h.new, Function.update_of_ne hu]

/-- Who is where when a thread has moved within the lock, or without it. -/
theorem Inv.threads (h : Inv s v) {pc pc' : Pc τ} (hm : Moved s s' t pc pc')
    (hmutex : s'.mMutex = s.mMutex) (hlock : pc'.locked = pc.locked)
    (hat : pc'.atFront = true → t = owner) :
    (∀ u, (s'.pc u).locked = true ↔ s'.mMutex = some u) ∧
    ∀ u, (s'.pc u).atFront = true → u = owner := by
  refine ⟨fun u => ?_, fun u hu => ?_⟩
  · by_cases hu : u = t
    · rw [hu, hm.self, hlock, ← hm.old, hmutex]
      exact h.locked t
    · rw [hm.other hu, hmutex]
      exact h.locked u
  · by_cases hut : u = t
    · rw [hut, hm.self] at hu
      exact hut.trans (hat hu)
    · rw [hm.other hut] at hu
      exact h.atFront u hu

/-- The lock holder is another thread, or nobody. -/
theorem Inv.holder_other (h : Inv s v) {pc pc' : Pc τ} (hm : Moved s s' t pc pc')
    (hmutex : s'.mMutex = s.mMutex) (hlock : pc.locked = false) : s'.holder = s.holder := by
  unfold St.holder
  rw [hmutex]
  cases hx : s.mMutex with
  | none => rfl
  | some u =>
    refine hm.other fun hu => ?_
    have := (h.locked u).mpr hx
    rw [hu, hm.old, hlock] at this
    cases this

/-- The lock holder itself has moved. -/
theorem Inv.holder_self (h : Inv s v) {pc pc' : Pc τ} (hm : Moved s s' t pc pc')
    (hmutex : s'.mMutex = s.mMutex) (hlock : pc.locked = true) :
    s.holder = pc ∧ s'.holder = pc' := by
  have hx : s.mMutex = some t := (h.locked t).mp (by rw [hm.old]; exact hlock)
  unfold St.holder
  rw [hmutex, hx]
  exact ⟨hm.old, hm.self⟩

/-- What is known of the owner's cell, when a thread has moved that is in no front operation. -/
theorem Inv.front_other (h : Inv s v) {pc pc' : Pc τ} (hm : Moved s s' t pc pc')
    (hold : pc.atFront = false) (hnew : pc'.atFront = false) :
    FrontOk s.d.mFront v.top v.frontPart v.frontHand (s'.pc owner) := by
  by_cases ht : t = owner
  · have := h.front
    rw [← ht, hm.old, FrontOk.of_not_atFront hold] at this
    rw [← ht, hm.self]
    exact (FrontOk.of_not_atFront hnew).mpr this
  · rw [hm.other (Ne.symm ht)]
    exact h.front

/-- A step that leaves the deque and the tasks alone. -/
theorem Inv.quiet (h : Inv s v) {pc pc' : Pc τ} (hm : Moved s s' t pc pc') (hd : s'.d = s.d)
    (hmutex : s'.mMutex = s.mMutex) (hpushed : s'.log.pushed = s.log.pushed)
    (hpopped : s'.log.popped = s.log.popped) (hlock : pc'.locked = pc.locked)
    (hat : pc'.atFront = true → t = owner)
    (hfront : t = owner → ∀ top part hand, FrontOk s.d.mFront top part hand pc →
      FrontOk s.d.mFront top part hand pc')
    (hback : pc.locked = true → ∀ b part hand, BackOk s.d.mBack b part hand pc →
      BackOk s.d.mBack b part hand pc') : Inv s' v := by
  obtain ⟨h1, h2⟩ := h.threads hm hmutex hlock hat
  refine ⟨by rw [hd]; exact h.ring, ?_, ?_, by rw [hpushed, hpopped]; exact h.balance, h1, h2⟩
  · rw [hd]
    by_cases ht : t = owner
    · rw [← ht, hm.self]
      refine hfront ht _ _ _ ?_
      have := h.front
      rwa [← ht, hm.old] at this
    · rw [hm.other (Ne.symm ht)]
      exact h.front
  · rw [hd]
    cases hl : pc.locked with
    | false =>
      rw [h.holder_other hm hmutex hl]
      exact h.back
    | true =>
      obtain ⟨hx, hx'⟩ := h.holder_self hm hmutex hl
      rw [hx']
      exact hback hl _ _ _ (hx ▸ h.back)

/-- A step of the owner at the front: the cells and tasks of the lock holder stay. -/
theorem Inv.front_step (h : Inv s v) {pc pc' : Pc τ} (hm : Moved s s' t pc pc')
    (hat : pc.atFront = true)
    (hold : pc.locked = false) (hnew : pc'.locked = false) (hmutex : s'.mMutex = s.mMutex)
    (hback : s'.d.mBack = s.d.mBack) (hring : Cells s'.d.mArray v'.b v'.cells) (hb : v'.b = v.b)
    (hpart : v'.backPart = v.backPart) (hhand : v'.backHand = v.backHand)
    (hfront : FrontOk s'.d.mFront v'.top v'.frontPart v'.frontHand pc')
    (hbalance : s'.log.pushed.Perm (s'.log.popped ++ v'.tasks)) : Inv s' v' := by
  have ht : t = owner := h.atFront t (by rw [hm.old]; exact hat)
  obtain ⟨h1, h2⟩ := h.threads hm hmutex (hnew.trans hold.symm) fun _ => ht
  refine ⟨hring, ?_, ?_, hbalance, h1, h2⟩
  · rw [← ht, hm.self]
    exact hfront
  · rw [h.holder_other hm hmutex hold, hback, hb, hpart, hhand]
    exact h.back

/-- A step of the lock holder: the cell and the task of the owner stay. -/
theorem Inv.back_step (h : Inv s v) {pc pc' : Pc τ} (hm : Moved s s' t pc pc')
    (hold : pc.locked = true) (hnew : pc'.locked = true) (hmutex : s'.mMutex = s.mMutex)
    (hfront : s'.d.mFront = s.d.mFront) (hring : Cells s'.d.mArray v'.b v'.cells)
    (htop : v'.top = v.top) (hpart : v'.frontPart = v.frontPart)
    (hhand : v'.frontHand = v.frontHand)
    (hback : BackOk s'.d.mBack v'.b v'.backPart v'.backHand pc')
    (hbalance : s'.log.pushed.Perm (s'.log.popped ++ v'.tasks)) : Inv s' v' := by
  have hnat := atFront_eq_false_of_locked hnew
  obtain ⟨h1, h2⟩ := h.threads hm hmutex (hnew.trans hold.symm) fun hf => by
    rw [hnat] at hf
    cases hf
  obtain ⟨-, hx'⟩ := h.holder_self hm hmutex hold
  refine ⟨hring, ?_, ?_, hbalance, h1, h2⟩
  · rw [hfront, htop, hpart, hhand]
    exact h.front_other hm (atFront_eq_false_of_locked hold) hnat
  · rw [hx']
    exact hback

/-- `mMutex` is taken. -/
theorem Inv.lock (h : Inv s v) {pc pc' : Pc τ} (hm : Moved s s' t pc pc') (hold : pc.locked = false)
    (hnew : pc'.locked = true) (hfree : s.mMutex = none) (hmutex : s'.mMutex = some t)
    (hd : s'.d = s.d) (hlog : s'.log = s.log) (hat : pc.atFront = false)
    (hback : ∀ b part hand, BackOk s.d.mBack b part hand pc → BackOk s.d.mBack b part hand pc') :
    Inv s' v := by
  have hnat := atFront_eq_false_of_locked hnew
  refine ⟨by rw [hd]; exact h.ring, ?_, ?_, by rw [hlog]; exact h.balance, fun u => ?_, fun u hu =>
    ?_⟩
  · rw [hd]
    exact h.front_other hm hat hnat
  · have hx : s'.holder = pc' := by
      unfold St.holder
      rw [hmutex]
      exact hm.self
    have hy : s.holder = .idle := by
      unfold St.holder
      rw [hfree]
    rw [hx, hd]
    refine hback _ _ _ ?_
    have := h.back
    rw [hy, BackOk.of_not_locked rfl] at this
    exact (BackOk.of_not_locked hold).mpr this
  · by_cases hu : u = t
    · rw [hu, hm.self, hnew, hmutex]
      simp
    · rw [hm.other hu, h.locked u, hfree, hmutex]
      simp [Ne.symm hu]
  · by_cases hut : u = t
    · rw [hut, hm.self, hnat] at hu
      cases hu
    · rw [hm.other hut] at hu
      exact h.atFront u hu

/-- `mMutex` is released. -/
theorem Inv.unlock (h : Inv s v) (hm : Moved s s' t .unlock .idle) (hmutex : s'.mMutex = none)
    (hd : s'.d = s.d) (hlog : s'.log = s.log) : Inv s' v := by
  have hheld : s.mMutex = some t := (h.locked t).mp (by rw [hm.old]; rfl)
  refine ⟨by rw [hd]; exact h.ring, ?_, ?_, by rw [hlog]; exact h.balance, fun u => ?_, fun u hu =>
    ?_⟩
  · rw [hd]
    exact h.front_other hm rfl rfl
  · have hx : s'.holder = .idle := by
      unfold St.holder
      rw [hmutex]
    have hy : s.holder = .unlock := by
      unfold St.holder
      rw [hheld]
      exact hm.old
    have := h.back
    rw [hy] at this
    rw [hx, hd]
    exact this
  · by_cases hu : u = t
    · rw [hu, hm.self, hmutex]
      simp [Pc.locked]
    · rw [hm.other hu, h.locked u, hheld, hmutex]
      simp [Ne.symm hu]
  · by_cases hut : u = t
    · rw [hut, hm.self] at hu
      cases hu
    · rw [hm.other hut] at hu
      exact h.atFront u hu

/-! ## The steps at the front -/

/-- The head of the lock holder's cells is not empty, the last one is not ready. -/
theorem BackOk.ends {mBack : Word} {b : Int} {part : List (Elem τ)} {hand : List τ} {pc : Pc τ}
    (h : BackOk mBack b part hand pc) :
    (∀ e, part.head? = some e → e.state ≠ .kEmpty) ∧
    ∀ e, part.getLast? = some e → e.state ≠ .kReady := by
  have hclaimed : ∀ {l : Half τ} {rs : List τ} {e : Elem τ} {holes : List (Elem τ)},
      l.Claimed mBack b rs e holes → part = rs.map ready ++ e :: holes →
      (∀ e, part.head? = some e → e.state ≠ .kEmpty) ∧
      ∀ e, part.getLast? = some e → e.state ≠ .kReady := by
    rintro l rs e holes hc rfl
    refine ⟨fun c hh => ?_, fun c hl => ?_⟩
    · cases rs with
      | nil =>
        cases hh
        exact hc.state
      | cons x rs =>
        cases hh
        simp [ready]
    · rcases List.eq_nil_or_concat holes with rfl | ⟨cs, c', rfl⟩
      · simp only [List.getLast?_append, List.getLast?_singleton, Option.some_or,
          Option.some.injEq] at hl
        exact hl ▸ hc.first rfl
      · rw [List.concat_eq_append, ← List.cons_append, ← List.append_assoc, List.getLast?_concat,
          Option.some.injEq] at hl
        have := hc.empty c' (by simp)
        rw [← hl, this]
        decide
  have hnil : part = [] → (∀ e, part.head? = some e → e.state ≠ .kEmpty) ∧
      ∀ e, part.getLast? = some e → e.state ≠ .kReady := by
    rintro rfl
    exact ⟨nofun, nofun⟩
  have hbusy : ∀ x, part = [⟨.kBusy, x⟩] → (∀ e, part.head? = some e → e.state ≠ .kEmpty) ∧
      ∀ e, part.getLast? = some e → e.state ≠ .kReady := by
    rintro x rfl
    refine ⟨fun e he => ?_, fun e he => ?_⟩ <;> cases he <;> exact nofun
  unfold BackOk at h
  split at h
  case h_8 => obtain ⟨-, -, -, x, hx⟩ := h; exact hbusy x hx
  case h_9 => obtain ⟨-, -, -, x, hx⟩ := h; exact hbusy x hx
  case h_10 => exact hbusy _ h.2.2.2
  case h_11 => obtain ⟨-, -, x, -, hx⟩ := h; exact hbusy x hx
  case h_12 => obtain ⟨-, -, -, x, hx⟩ := h; exact hbusy x hx
  case h_13 => exact hnil h.2.2.2
  case h_14 =>
    split at h
    · exact hnil h.2.1
    · obtain ⟨rs, x, holes, hc, hpart, -⟩ := h
      exact hclaimed hc hpart
  case h_15 => exact hnil h.2.2.1
  case h_16 =>
    obtain ⟨rs, x, holes, hc, hpart, -⟩ := h
    exact hclaimed hc hpart
  case h_17 =>
    obtain ⟨rs, x, holes, hc, hpart, -⟩ := h
    exact hclaimed hc hpart
  case h_18 =>
    obtain ⟨k, -, -, -, hx, -⟩ := h
    exact hnil hx
  case h_19 => exact hnil h.2.1
  all_goals exact hnil h.2.2.1

/-- The owner's cell is busy. -/
theorem FrontOk.busy {mFront : Word} {top : Int} {part : List (Elem τ)} {hand : List τ} {pc : Pc τ}
    (h : FrontOk mFront top part hand pc) : ∀ e ∈ part, e.state = .kBusy := by
  have hnil : part = [] → ∀ e ∈ part, e.state = .kBusy := by
    rintro rfl
    exact nofun
  have hbusy : ∀ x, part = [⟨.kBusy, x⟩] → ∀ e ∈ part, e.state = .kBusy := by
    rintro x rfl e he
    rw [List.mem_singleton.mp he]
  unfold FrontOk at h
  split at h
  case h_5 => obtain ⟨-, -, -, x, hx⟩ := h; exact hbusy x hx
  case h_6 => obtain ⟨-, -, -, x, hx⟩ := h; exact hbusy x hx
  case h_7 => exact hbusy _ h.2.2.2
  case h_8 => obtain ⟨-, -, x, -, hx⟩ := h; exact hbusy x hx
  case h_9 => obtain ⟨-, -, -, x, hx⟩ := h; exact hbusy x hx
  case h_10 => exact hnil h.2.2.2
  case h_11 => exact hnil h.2.1
  all_goals exact hnil h.2.2.1

/-- The lowest cell is not empty. -/
theorem Inv.head_cells (h : Inv s v) {e : Elem τ} (he : v.cells.head? = some e) :
    e.state ≠ .kEmpty := by
  unfold View.cells at he
  cases hb : v.backPart with
  | cons c cs =>
    rw [hb] at he
    exact h.back.ends.1 e (by rw [hb]; exact he)
  | nil =>
    rw [hb, List.nil_append] at he
    cases hw : v.waiting with
    | cons x xs =>
      rw [hw] at he
      cases he
      exact nofun
    | nil =>
      rw [hw, List.map_nil, List.nil_append] at he
      rw [h.front.busy e (List.mem_of_mem_head? he)]
      exact nofun

/-- A free slot above the cells: the ring is not full. -/
theorem Inv.lt_of_above (h : Inv s v)
    (he : (s.d.mArray (Ring.slot kCapacity v.top)).state = .kEmpty) : v.cells.length < kCapacity := by
  refine Nat.lt_of_le_of_ne h.ring.le fun hl => ?_
  cases hc : v.cells with
  | nil =>
    rw [hc] at hl
    cases hl
  | cons c cs =>
    have h0 := h.ring
    rw [hc] at h0
    rw [View.top, hl, Ring.slot_lap, h0.bottom] at he
    exact h.head_cells (by rw [hc]; rfl) he

theorem Inv.tick (h : Inv s v) : Inv s.tick v := ⟨h.ring, h.front, h.back, h.balance, h.locked,
    h.atFront⟩

/-- What is known of the owner's cell, at a control point of a front operation. -/
theorem Inv.front_at (h : Inv s v) {pc : Pc τ} (hp : s.pc t = pc) (hat : pc.atFront = true) :
    FrontOk s.d.mFront v.top v.frontPart v.frontHand pc := by
  have ht : t = owner := h.atFront t (by rw [hp]; exact hat)
  have := h.front
  rwa [← ht, hp] at this

/-- What is known of the lock holder's cells, at a control point under the lock. -/
theorem Inv.back_at (h : Inv s v) {pc : Pc τ} (hp : s.pc t = pc) (hlock : pc.locked = true) :
    BackOk s.d.mBack v.b v.backPart v.backHand pc := by
  have hx : s.mMutex = some t := (h.locked t).mp (by rw [hp]; exact hlock)
  have := h.back
  rw [St.holder, hx] at this
  exact hp ▸ this

/-- The compare-exchange of `PushFront`. -/
theorem Inv.pushCas_front (h : Inv s v) {task : τ} {w : Word} (hp : s.pc t = .pushCas .front task w)
    (he : (s.d.mArray (End.front.pushSlot w)).state = .kEmpty) (x : τ) :
    Inv { s.goto t (.pushIndex .front task w) with
      d := write s.d (End.front.pushSlot w) ⟨.kBusy, x⟩ }
      { v with frontPart := [⟨.kBusy, x⟩] } := by
  obtain ⟨rfl, hat, hpart, hhand⟩ := h.front_at hp rfl
  have hslot : End.front.pushSlot s.d.mFront = Ring.slot kCapacity v.top := hat.slot
  rw [hslot] at he ⊢
  have hcells : View.cells { v with frontPart := [⟨.kBusy, x⟩] } = v.cells ++ [⟨.kBusy, x⟩] := by
    simp [View.cells, hpart]
  refine h.front_step ⟨hp, rfl⟩ rfl rfl rfl rfl rfl ?_ rfl rfl rfl ?_ ?_
  · rw [hcells]
    exact h.ring.pushTop (h.lt_of_above he) rfl
  · refine ⟨rfl, ?_, hhand, x, rfl⟩
    have htop : View.top { v with frontPart := [⟨.kBusy, x⟩] } - 1 = v.top := by
      rw [View.top, hcells, View.top]
      simp only [List.length_append, List.length_singleton]
      omega
    rw [htop]
    exact hat
  · exact h.balance

/-- The cells but the owner's. -/
theorem View.cells_front {c : Elem τ} (hc : v.frontPart = [c]) :
    v.cells = v.backPart ++ v.waiting.map ready ++ c :: [] := by
  simp [View.cells, hc]

/-- The position of the owner's cell. -/
theorem View.top_front {c : Elem τ} (hc : v.frontPart = [c]) :
    v.top - 1 = v.b + (v.backPart ++ v.waiting.map ready).length := by
  rw [View.top, View.cells_front hc]
  simp only [List.length_append, List.length_singleton]
  omega

/-- The owner's cell. -/
theorem Inv.front_cell (h : Inv s v) {c : Elem τ} (hc : v.frontPart = [c]) :
    s.d.mArray (Ring.slot kCapacity (v.top - 1)) = c := by
  have hr := h.ring
  rw [View.cells_front hc] at hr
  rw [View.top_front hc]
  exact hr.item

/-- The owner's cell changes. -/
theorem Inv.replace_front (h : Inv s v) {c : Elem τ} (hc : v.frontPart = [c]) (c' : Elem τ) :
    Cells (Function.update s.d.mArray (Ring.slot kCapacity (v.top - 1)) c') v.b
      (v.backPart ++ v.waiting.map ready ++ [c']) := by
  have hr := h.ring
  rw [View.cells_front hc] at hr
  rw [View.top_front hc]
  exact hr.replace rfl

/-- The store of `mFront` in `PushFront`. -/
theorem Inv.pushIndex_front (h : Inv s v) {task : τ} {w : Word}
    (hp : s.pc t = .pushIndex .front task w) :
    Inv { s.goto t (.pushMove .front task w) with
      d := { s.d with mFront := w + kIncrement }, log := { s.log with ups := s.log.ups + 1 } } v := by
  obtain ⟨rfl, hat, hhand, x, hx⟩ := h.front_at hp rfl
  refine h.front_step ⟨hp, rfl⟩ rfl rfl rfl rfl rfl h.ring rfl rfl rfl ⟨?_, hat, hhand, x, hx⟩
    h.balance
  have := hat.inc
  rwa [Int.sub_add_cancel] at this

/-- The task is moved into the slot by `PushFront`. -/
theorem Inv.pushMove_front (h : Inv s v) {task : τ} {w : Word}
    (hp : s.pc t = .pushMove .front task w) :
    Inv { s.goto t (.pushStore .front task w) with
      d := write s.d (End.front.pushSlot w) ⟨(s.d.mArray (End.front.pushSlot w)).state, task⟩ }
      { v with frontPart := [⟨.kBusy, task⟩] } := by
  obtain ⟨hF, hat, hhand, x, hx⟩ := h.front_at hp rfl
  have hslot : End.front.pushSlot w = Ring.slot kCapacity (v.top - 1) := hat.slot
  have htop : View.top { v with frontPart := [⟨.kBusy, task⟩] } = v.top := by
    simp [View.top, View.cells, hx]
  rw [hslot, h.front_cell hx]
  refine h.front_step ⟨hp, rfl⟩ rfl rfl rfl rfl rfl ?_ rfl rfl rfl ?_ h.balance
  · rw [View.cells_front rfl]
    exact h.replace_front hx _
  · rw [htop]
    exact ⟨hF, hat, hhand, rfl⟩

/-- The task becomes ready. -/
theorem Inv.pushStore_front (h : Inv s v) {task : τ} {w : Word}
    (hp : s.pc t = .pushStore .front task w) :
    Inv { s.goto t .idle with
      d := write s.d (End.front.pushSlot w) ⟨.kReady, (s.d.mArray (End.front.pushSlot w)).task⟩
      log := { s.log with pushed := s.log.pushed ++ [task] } }
      { v with waiting := v.waiting ++ [task], frontPart := [] } := by
  obtain ⟨hF, hat, hhand, hx⟩ := h.front_at hp rfl
  have hslot : End.front.pushSlot w = Ring.slot kCapacity (v.top - 1) := hat.slot
  have hcells : View.cells { v with waiting := v.waiting ++ [task], frontPart := [] } =
      v.backPart ++ v.waiting.map ready ++ [ready task] := by
    simp [View.cells]
  have htop : View.top { v with waiting := v.waiting ++ [task], frontPart := [] } = v.top := by
    rw [View.top, hcells]
    simp [View.top, View.cells, hx]
  rw [hslot, h.front_cell hx]
  refine h.front_step ⟨hp, rfl⟩ rfl rfl rfl rfl rfl ?_ rfl rfl rfl ?_ ?_
  · rw [hcells]
    exact h.replace_front hx _
  · rw [htop]
    exact ⟨hF, rfl, hhand⟩
  · have := h.balance.append_right [task]
    simpa [View.tasks, hhand] using this

/-- A ready slot below the top is that of the last task that waits. -/
theorem Inv.last_waiting (h : Inv s v) (hpart : v.frontPart = [])
    (he : (s.d.mArray (Ring.slot kCapacity (v.top - 1))).state = .kReady) :
    ∃ ws x, v.waiting = ws ++ [x] := by
  rcases List.eq_nil_or_concat v.waiting with hw | ⟨ws, x, hw⟩
  · exfalso
    have hcells : v.cells = v.backPart := by simp [View.cells, hw, hpart]
    rcases List.eq_nil_or_concat v.backPart with hb | ⟨cs, c, hb⟩
    · have hr := h.ring
      rw [hcells, hb] at hr
      rw [View.top, hcells, hb, List.length_nil, Int.natCast_zero, Int.add_zero,
        hr.below_free (by simp [kCapacity])] at he
      cases he
    · rw [List.concat_eq_append] at hb
      have hlast : v.cells.getLast? = some c := by rw [hcells, hb, List.getLast?_concat]
      have := h.ring.top hlast
      rw [View.top, this] at he
      exact h.back.ends.2 c (by rw [hb, List.getLast?_concat]) he
  · exact ⟨ws, x, by rw [hw, List.concat_eq_append]⟩

/-- The compare-exchange of `PopFront`. -/
theorem Inv.popCas_front (h : Inv s v) {w : Word} (hp : s.pc t = .popCas .front w)
    (he : (s.d.mArray (End.front.popSlot w)).state = .kReady) :
    ∃ v', Inv { s.goto t (.popMove .front w) with
      d := write s.d (End.front.popSlot w)
        ⟨.kBusy, (s.d.mArray (End.front.popSlot w)).task⟩ } v' := by
  obtain ⟨rfl, hat, hpart, hhand⟩ := h.front_at hp rfl
  have hslot : End.front.popSlot s.d.mFront = Ring.slot kCapacity (v.top - 1) := hat.sub_one.slot
  rw [hslot] at he ⊢
  obtain ⟨ws, x, hw⟩ := h.last_waiting hpart he
  have hcells : v.cells = v.backPart ++ ws.map ready ++ ready x :: [] := by
    simp [View.cells, hw, hpart]
  have htop : v.top - 1 = v.b + (v.backPart ++ ws.map ready).length := by
    rw [View.top, hcells]
    simp only [List.length_append, List.length_singleton]
    omega
  have hr := h.ring
  rw [hcells] at hr
  have hx : s.d.mArray (Ring.slot kCapacity (v.top - 1)) = ready x := by rw [htop]; exact hr.item
  rw [hx]
  refine ⟨{ v with waiting := ws, frontPart := [⟨.kBusy, x⟩], frontHand := [x] },
    h.front_step ⟨hp, rfl⟩ rfl rfl rfl rfl rfl ?_ rfl rfl rfl ?_ ?_⟩
  · rw [View.cells_front rfl, htop]
    exact hr.replace rfl
  · have htop' : View.top { v with waiting := ws, frontPart := [⟨.kBusy, x⟩], frontHand := [x] } =
        v.top := by
      simp [View.top, View.cells, hw, hpart]
    rw [htop']
    exact ⟨rfl, hat, x, rfl, rfl⟩
  · have := h.balance
    simpa [View.tasks, hhand, hw, St.goto] using this

/-- The task is moved out of the slot by `PopFront`. -/
theorem Inv.popMove_front (h : Inv s v) {w : Word} (hp : s.pc t = .popMove .front w) (y : τ) :
    Inv { s.goto t (.popStore .front w (s.d.mArray (End.front.popSlot w)).task) with
      d := write s.d (End.front.popSlot w) ⟨(s.d.mArray (End.front.popSlot w)).state, y⟩ }
      { v with frontPart := [⟨.kBusy, y⟩] } := by
  obtain ⟨hF, hat, x, hhand, hx⟩ := h.front_at hp rfl
  have hslot : End.front.popSlot w = Ring.slot kCapacity (v.top - 1) := hat.sub_one.slot
  have htop : View.top { v with frontPart := [⟨.kBusy, y⟩] } = v.top := by
    simp [View.top, View.cells, hx]
  rw [hslot, h.front_cell hx]
  refine h.front_step ⟨hp, rfl⟩ rfl rfl rfl rfl rfl ?_ rfl rfl rfl ?_ h.balance
  · rw [View.cells_front rfl]
    exact h.replace_front hx _
  · rw [htop]
    exact ⟨hF, hat, hhand, y, rfl⟩

/-- The slot is freed by `PopFront`. -/
theorem Inv.popStore_front (h : Inv s v) {w : Word} {task : τ}
    (hp : s.pc t = .popStore .front w task) (y : τ) :
    Inv { s.goto t (.popIndex .front w task) with
      d := write s.d (End.front.popSlot w) ⟨.kEmpty, y⟩ } { v with frontPart := [] } := by
  obtain ⟨hF, hat, hhand, x, hx⟩ := h.front_at hp rfl
  have hslot : End.front.popSlot w = Ring.slot kCapacity (v.top - 1) := hat.sub_one.slot
  have hcells : View.cells { v with frontPart := [] } = v.backPart ++ v.waiting.map ready := by
    simp [View.cells]
  have htop : View.top { v with frontPart := [] } + 1 = v.top := by
    simp only [View.top, View.cells, hx, List.length_append, List.length_nil, List.length_singleton]
    omega
  rw [hslot]
  refine h.front_step ⟨hp, rfl⟩ rfl rfl rfl rfl rfl ?_ rfl rfl rfl ?_ h.balance
  · have hr := h.ring
    rw [View.cells_front hx] at hr
    rw [hcells, View.top_front hx]
    exact hr.popTop rfl
  · rw [FrontOk, htop]
    exact ⟨hF, hat, hhand, rfl⟩

/-- The store of `mFront` in `PopFront`: the task is returned. -/
theorem Inv.popIndex_front (h : Inv s v) {w : Word} {task : τ}
    (hp : s.pc t = .popIndex .front w task) :
    Inv { s.goto t .idle with
      d := { s.d with mFront := dec w }
      log := { s.log with downs := s.log.downs + 1, popped := s.log.popped ++ [task] } }
      { v with frontHand := [] } := by
  obtain ⟨-, hat, hhand, hx⟩ := h.front_at hp rfl
  refine h.front_step ⟨hp, rfl⟩ rfl rfl rfl rfl rfl h.ring rfl rfl rfl ⟨?_, hx, rfl⟩ ?_
  · have := hat.dec
    rwa [Int.add_sub_cancel] at this
  · refine h.balance.trans ?_
    simp only [View.tasks, hhand, List.append_nil, List.append_assoc]
    refine List.Perm.append_left _ ?_
    rw [← List.append_assoc]
    exact List.perm_append_comm

/-! ## The steps at the back -/

/-- Without cells of the lock holder, no cell is empty. -/
theorem Inv.mem_cells (h : Inv s v) (hpart : v.backPart = []) {e : Elem τ} (he : e ∈ v.cells) :
    e.state ≠ .kEmpty := by
  rw [View.cells, hpart, List.nil_append, List.mem_append] at he
  rcases he with he | he
  · obtain ⟨x, -, rfl⟩ := List.mem_map.mp he
    exact nofun
  · rw [h.front.busy e he]
    exact nofun

/-- A free slot below the cells: the ring is not full. -/
theorem Inv.lt_of_below (h : Inv s v) (hpart : v.backPart = [])
    (he : (s.d.mArray (Ring.slot kCapacity (v.b - 1))).state = .kEmpty) :
    v.cells.length < kCapacity := by
  refine Nat.lt_of_le_of_ne h.ring.le fun hl => ?_
  rcases List.eq_nil_or_concat v.cells with hc | ⟨cs, c, hc⟩
  · rw [hc] at hl
    cases hl
  · have htop := h.ring.top (x := c) (by rw [hc, List.concat_eq_append, List.getLast?_concat])
    rw [hl, show v.b + (kCapacity : Int) - 1 = v.b - 1 + kCapacity by omega, Ring.slot_lap] at htop
    rw [htop] at he
    exact h.mem_cells hpart (by rw [hc]; simp) he

/-- The compare-exchange of `PushBack`. -/
theorem Inv.pushCas_back (h : Inv s v) {task : τ} {w : Word} (hp : s.pc t = .pushCas .back task w)
    (he : (s.d.mArray (End.back.pushSlot w)).state = .kEmpty) (x : τ) :
    Inv { s.goto t (.pushIndex .back task w) with d := write s.d (End.back.pushSlot w) ⟨.kBusy, x⟩ }
      { v with b := v.b - 1, backPart := [⟨.kBusy, x⟩] } := by
  obtain ⟨rfl, hat, hpart, hhand⟩ := h.back_at hp rfl
  have hslot : End.back.pushSlot s.d.mBack = Ring.slot kCapacity (v.b - 1) := hat.sub_one.slot
  rw [hslot] at he ⊢
  have hcells : View.cells { v with b := v.b - 1, backPart := [⟨.kBusy, x⟩] } =
      ⟨.kBusy, x⟩ :: v.cells := by
    simp [View.cells, hpart]
  refine h.back_step ⟨hp, rfl⟩ rfl rfl rfl rfl ?_ ?_ rfl rfl ⟨rfl, ?_, hhand, x, rfl⟩ h.balance
  · rw [hcells]
    exact h.ring.pushBottom (h.lt_of_below hpart he) rfl
  · rw [View.top, hcells, View.top, List.length_cons]
    show v.b - 1 + ((v.cells.length + 1 : Nat) : Int) = _
    omega
  · show At s.d.mBack (v.b - 1 + 1)
    rw [Int.sub_add_cancel]
    exact hat

/-- The cells but the lock holder's one cell. -/
theorem View.cells_back {c : Elem τ} (hc : v.backPart = [c]) :
    v.cells = c :: (v.waiting.map ready ++ v.frontPart) := by
  simp [View.cells, hc]

/-- The lock holder's one cell. -/
theorem Inv.back_cell (h : Inv s v) {c : Elem τ} (hc : v.backPart = [c]) :
    s.d.mArray (Ring.slot kCapacity v.b) = c := by
  have hr := h.ring
  rw [View.cells_back hc] at hr
  exact hr.bottom

/-- The lock holder's one cell changes. -/
theorem Inv.replace_back (h : Inv s v) {c : Elem τ} (hc : v.backPart = [c]) (c' : Elem τ) :
    Cells (Function.update s.d.mArray (Ring.slot kCapacity v.b) c') v.b
      (c' :: (v.waiting.map ready ++ v.frontPart)) := by
  have hr := h.ring
  rw [View.cells_back hc, ← List.nil_append (c :: _)] at hr
  have := hr.replace (y := c') (e := c') rfl
  simpa using this

/-- The store of `mBack` in `PushBack`. -/
theorem Inv.pushIndex_back (h : Inv s v) {task : τ} {w : Word}
    (hp : s.pc t = .pushIndex .back task w) :
    Inv { s.goto t (.pushMove .back task w) with d := { s.d with mBack := dec w } } v := by
  obtain ⟨rfl, hat, hhand, x, hx⟩ := h.back_at hp rfl
  refine h.back_step ⟨hp, rfl⟩ rfl rfl rfl rfl h.ring rfl rfl rfl ⟨?_, hat, hhand, x, hx⟩ h.balance
  have := hat.dec
  rwa [Int.add_sub_cancel] at this

/-- The task is moved into the slot by `PushBack`. -/
theorem Inv.pushMove_back (h : Inv s v) {task : τ} {w : Word}
    (hp : s.pc t = .pushMove .back task w) :
    Inv { s.goto t (.pushStore .back task w) with
      d := write s.d (End.back.pushSlot w) ⟨(s.d.mArray (End.back.pushSlot w)).state, task⟩ }
      { v with backPart := [⟨.kBusy, task⟩] } := by
  obtain ⟨hB, hat, hhand, x, hx⟩ := h.back_at hp rfl
  have hslot : End.back.pushSlot w = Ring.slot kCapacity v.b := by
    have := hat.sub_one.slot
    rwa [Int.add_sub_cancel] at this
  rw [hslot, h.back_cell hx]
  refine h.back_step ⟨hp, rfl⟩ rfl rfl rfl rfl ?_ ?_ rfl rfl ⟨hB, hat, hhand, rfl⟩ h.balance
  · rw [View.cells_back rfl]
    exact h.replace_back hx _
  · simp [View.top, View.cells, hx]

/-- The task becomes ready. -/
theorem Inv.pushStore_back (h : Inv s v) {task : τ} {w : Word}
    (hp : s.pc t = .pushStore .back task w) :
    Inv { s.goto t .unlock with
      d := write s.d (End.back.pushSlot w) ⟨.kReady, (s.d.mArray (End.back.pushSlot w)).task⟩
      log := { s.log with pushed := s.log.pushed ++ [task] } }
      { v with backPart := [], waiting := task :: v.waiting } := by
  obtain ⟨hB, hat, hhand, hx⟩ := h.back_at hp rfl
  have hslot : End.back.pushSlot w = Ring.slot kCapacity v.b := by
    have := hat.sub_one.slot
    rwa [Int.add_sub_cancel] at this
  have hcells : View.cells { v with backPart := [], waiting := task :: v.waiting } =
      ready task :: (v.waiting.map ready ++ v.frontPart) := rfl
  rw [hslot, h.back_cell hx]
  refine h.back_step ⟨hp, rfl⟩ rfl rfl rfl rfl ?_ ?_ rfl rfl ⟨hB, rfl, hhand⟩ ?_
  · rw [hcells]
    exact h.replace_back hx _
  · rw [View.top, hcells, View.top, View.cells_back hx]
    rfl
  · refine (h.balance.append_right [task]).trans ?_
    simp only [View.tasks, hhand, List.nil_append, List.append_assoc, List.cons_append]
    refine List.Perm.append_left _ ?_
    rw [← List.append_assoc]
    exact List.perm_append_comm

/-- A ready slot at the bottom is that of the first task that waits. -/
theorem Inv.first_waiting (h : Inv s v) (hpart : v.backPart = []) {k : Nat} (hk : k < kCapacity)
    (he : (s.d.mArray (Ring.slot kCapacity (v.b + k))).state = .kReady) :
    ∃ rs x ws, v.waiting = rs ++ x :: ws ∧ rs.length = k := by
  have hcells : v.cells = v.waiting.map ready ++ v.frontPart := by simp [View.cells, hpart]
  by_cases hlt : k < v.waiting.length
  · refine ⟨v.waiting.take k, v.waiting[k], v.waiting.drop (k + 1), ?_, by simp; omega⟩
    rw [List.getElem_cons_drop, List.take_append_drop]
  · exfalso
    by_cases hc : k < v.cells.length
    · have hx := h.ring.full k hc
      have hmem : v.cells[k] ∈ v.frontPart := by
        have hget : v.cells[k]? = v.frontPart[k - v.waiting.length]? := by
          rw [hcells, List.getElem?_append_right (by simpa using hlt), List.length_map]
        rw [List.getElem?_eq_getElem hc] at hget
        exact List.mem_of_getElem? hget.symm
      rw [hx, h.front.busy _ hmem] at he
      cases he
    · rw [h.ring.free (v.b + k) (by omega) (by omega)] at he
      cases he

/-- The compare-exchange of `PopBack`. -/
theorem Inv.popCas_back (h : Inv s v) {w : Word} (hp : s.pc t = .popCas .back w)
    (he : (s.d.mArray (End.back.popSlot w)).state = .kReady) :
    ∃ v', Inv { s.goto t (.popMove .back w) with
      d := write s.d (End.back.popSlot w) ⟨.kBusy, (s.d.mArray (End.back.popSlot w)).task⟩ } v' := by
  obtain ⟨rfl, hat, hpart, hhand⟩ := h.back_at hp rfl
  have hslot : End.back.popSlot s.d.mBack = Ring.slot kCapacity v.b := hat.slot
  rw [hslot] at he ⊢
  obtain ⟨rs, x, ws, hw, hrs⟩ := h.first_waiting hpart (k := 0) (by decide)
    (by rwa [Int.natCast_zero, Int.add_zero])
  obtain rfl := List.length_eq_zero_iff.mp hrs
  rw [List.nil_append] at hw
  have hcells : v.cells = [] ++ ready x :: (ws.map ready ++ v.frontPart) := by
    simp [View.cells, hw, hpart]
  have hr := h.ring
  rw [hcells] at hr
  rw [hr.bottom]
  refine ⟨{ v with backPart := [⟨.kBusy, x⟩], waiting := ws, backHand := [x] },
    h.back_step ⟨hp, rfl⟩ rfl rfl rfl rfl ?_ ?_ rfl rfl ⟨rfl, hat, x, rfl, rfl⟩ ?_⟩
  · have := hr.replace (y := ⟨.kBusy, x⟩) (e := ⟨.kBusy, x⟩) rfl
    rw [View.cells_back rfl]
    simpa [write, ready] using this
  · rw [View.top, View.cells_back rfl, View.top, hcells]
    rfl
  · have := h.balance
    simpa [View.tasks, hhand, hw, St.goto] using this

/-- The task is moved out of the slot by `PopBack`. -/
theorem Inv.popMove_back (h : Inv s v) {w : Word} (hp : s.pc t = .popMove .back w) (y : τ) :
    Inv { s.goto t (.popStore .back w (s.d.mArray (End.back.popSlot w)).task) with
      d := write s.d (End.back.popSlot w) ⟨(s.d.mArray (End.back.popSlot w)).state, y⟩ }
      { v with backPart := [⟨.kBusy, y⟩] } := by
  obtain ⟨hB, hat, x, hhand, hx⟩ := h.back_at hp rfl
  have hslot : End.back.popSlot w = Ring.slot kCapacity v.b := hat.slot
  rw [hslot, h.back_cell hx]
  refine h.back_step ⟨hp, rfl⟩ rfl rfl rfl rfl ?_ ?_ rfl rfl ⟨hB, hat, hhand, y, rfl⟩ h.balance
  · rw [View.cells_back rfl]
    exact h.replace_back hx _
  · simp [View.top, View.cells, hx]

/-- The slot is freed by `PopBack`. -/
theorem Inv.popStore_back (h : Inv s v) {w : Word} {task : τ}
    (hp : s.pc t = .popStore .back w task) (y : τ) :
    Inv { s.goto t (.popIndex .back w task) with
      d := write s.d (End.back.popSlot w) ⟨.kEmpty, y⟩ } { v with b := v.b + 1, backPart := [] } := by
  obtain ⟨hB, hat, hhand, x, hx⟩ := h.back_at hp rfl
  have hslot : End.back.popSlot w = Ring.slot kCapacity v.b := hat.slot
  have hr := h.ring
  rw [View.cells_back hx] at hr
  rw [hslot]
  refine h.back_step ⟨hp, rfl⟩ rfl rfl rfl rfl (hr.popBottom rfl) ?_ rfl rfl
    ⟨hB, ?_, hhand, rfl⟩ h.balance
  · rw [View.top, View.top, View.cells_back hx, List.length_cons]
    show v.b + 1 + ((v.waiting.map ready ++ v.frontPart).length : Int) = _
    omega
  · show At w (v.b + 1 - 1)
    rwa [Int.add_sub_cancel]

/-- The store of `mBack` in `PopBack`: the task is returned. -/
theorem Inv.popIndex_back (h : Inv s v) {w : Word} {task : τ}
    (hp : s.pc t = .popIndex .back w task) :
    Inv { s.goto t .unlock with
      d := { s.d with mBack := w + kIncrement }
      log := { s.log with popped := s.log.popped ++ [task] } } { v with backHand := [] } := by
  obtain ⟨-, hat, hhand, hx⟩ := h.back_at hp rfl
  refine h.back_step ⟨hp, rfl⟩ rfl rfl rfl rfl h.ring rfl rfl rfl ⟨?_, hx, rfl⟩ ?_
  · have := hat.inc
    rwa [Int.sub_add_cancel] at this
  · have := h.balance
    simpa [View.tasks, hhand] using this

/-! ## `PopBackHalf` -/

/-- The next round of the loop before a slot is claimed. -/
theorem Half.Unclaimed.next {h : Half τ} {mBack : Word} {b : Int} (hu : h.Unclaimed mBack b)
    (hn : h.n = 0) :
    (Half.next { h with mid := h.mid - 1 }).locked = true ∧
    BackOk mBack b [] [] (Half.next { h with mid := h.mid - 1 }) := by
  obtain ⟨k, hk, hmid⟩ := hu.mid
  have hint : ((h.mid - 1) - h.back).toInt = k - 1 := by
    rw [hmid, hu.back]
    exact toInt_mid_sub mBack (by unfold kCapacity; omega)
  unfold Half.next
  rw [hint]
  split_ifs with h0 hne
  · refine ⟨rfl, ?_⟩
    rw [BackOk, if_pos hn]
    refine ⟨⟨hu.back, hu.at_back, ⟨k - 1, by omega, ?_⟩, hu.result⟩, rfl, rfl⟩
    obtain ⟨k, rfl⟩ : ∃ j, k = j + 1 := ⟨k - 1, by omega⟩
    show h.mid - 1 = _
    rw [hmid, BitVec.ofNat_add]
    simp [BitVec.sub_eq_add_neg, BitVec.add_assoc]
  · exact absurd hn hne
  · exact ⟨rfl, hu.at_back, rfl, rfl⟩

/-- `mid` is the slot above those of `rs`. -/
theorem Half.Claimed.slot_mid {h : Half τ} {mBack : Word} {b : Int} {rs : List τ} {e : Elem τ}
    {holes : List (Elem τ)} (hc : h.Claimed mBack b rs e holes) :
    slot h.mid = Ring.slot kCapacity (b + (rs.map ready).length) := by
  rw [hc.mid, List.length_map]
  exact (hc.at_back.add rs.length).slot

/-- The first exchange of `PopBackHalf`. -/
theorem Inv.halfCas (h : Inv s v) {l : Half τ} (hp : s.pc t = .halfCas l)
    (he : (s.d.mArray (slot l.mid)).state = .kReady) :
    ∃ v', Inv { s.goto t (.halfMove { l with start := l.mid }) with
      d := write s.d (slot l.mid) ⟨.kBusy, (s.d.mArray (slot l.mid)).task⟩ } v' := by
  obtain ⟨-, hu, hpart, hhand⟩ := h.back_at hp rfl
  obtain ⟨k, hk, hmid⟩ := hu.mid
  have hslot : slot l.mid = Ring.slot kCapacity (v.b + k) := by
    rw [hmid]
    exact (hu.at_back.add k).slot
  rw [hslot] at he ⊢
  obtain ⟨rs, x, ws, hw, rfl⟩ := h.first_waiting hpart (by unfold kCapacity; omega) he
  have hcells : v.cells = rs.map ready ++ ready x :: (ws.map ready ++ v.frontPart) := by
    simp [View.cells, hw, hpart]
  have hr := h.ring
  rw [hcells] at hr
  have hitem : s.d.mArray (Ring.slot kCapacity (v.b + rs.length)) = ready x := by
    have := hr.item
    rwa [List.length_map] at this
  rw [hitem]
  refine ⟨{ v with backPart := rs.map ready ++ [⟨.kBusy, x⟩], waiting := ws, backHand := rs ++ [x]
    },
    h.back_step ⟨hp, rfl⟩ rfl rfl rfl rfl ?_ ?_ rfl rfl ⟨rs, ⟨.kBusy, x⟩, [], ?_, rfl, ?_⟩ ?_⟩
  · have := hr.replace (y := ⟨.kBusy, x⟩) (e := ⟨.kBusy, x⟩) rfl
    simpa [View.cells, write, ready] using this
  · rw [View.top, View.top, hcells]
    simp [View.cells]
  · exact ⟨hu.back, hu.at_back, hmid, hmid, hk, fun _ hc => absurd hc List.not_mem_nil,
      fun hc => (by cases hc), fun _ hc => (by cases hc)⟩
  · rw [hu.result]
  · have := h.balance
    simpa [View.tasks, hhand, hw, St.goto] using this

/-- The cells, when `PopBackHalf` has claimed a slot. -/
theorem View.cells_half {rs : List τ} {e : Elem τ} {holes : List (Elem τ)}
    (hpart : v.backPart = rs.map ready ++ e :: holes) :
    v.cells = rs.map ready ++ e :: (holes ++ (v.waiting.map ready ++ v.frontPart)) := by
  simp [View.cells, hpart]

/-- The cell at `mid`. -/
theorem Inv.half_cell (h : Inv s v) {l : Half τ} {rs : List τ} {e : Elem τ} {holes : List (Elem τ)}
    (hc : l.Claimed s.d.mBack v.b rs e holes) (hpart : v.backPart = rs.map ready ++ e :: holes) :
    s.d.mArray (slot l.mid) = e := by
  have hr := h.ring
  rw [View.cells_half hpart] at hr
  rw [hc.slot_mid]
  exact hr.item

/-- The cell at `mid` changes. -/
theorem Inv.replace_half (h : Inv s v) {l : Half τ} {rs : List τ} {e : Elem τ}
    {holes : List (Elem τ)} (hc : l.Claimed s.d.mBack v.b rs e holes)
    (hpart : v.backPart = rs.map ready ++ e :: holes) (e' : Elem τ) :
    Cells (Function.update s.d.mArray (slot l.mid) e') v.b
      (rs.map ready ++ e' :: (holes ++ (v.waiting.map ready ++ v.frontPart))) := by
  have hr := h.ring
  rw [View.cells_half hpart] at hr
  rw [hc.slot_mid]
  exact hr.replace rfl

/-- A task is moved out of its slot by `PopBackHalf`. -/
theorem Inv.halfMove (h : Inv s v) {l : Half τ} (hp : s.pc t = .halfMove l) (y : τ) :
    ∃ v', Inv { s.goto t (.halfStore { l with result := l.result ++
        [(s.d.mArray (slot l.mid)).task] }) with
      d := write s.d (slot l.mid) ⟨(s.d.mArray (slot l.mid)).state, y⟩ } v' := by
  obtain ⟨rs, e, holes, hc, hpart, hhand⟩ := h.back_at hp rfl
  rw [h.half_cell hc hpart]
  refine ⟨{ v with
    backPart := rs.map ready ++ ⟨e.state, y⟩ :: holes, backHand := rs ++ (l.result ++ [e.task]) },
    h.back_step ⟨hp, rfl⟩ rfl rfl rfl rfl ?_ ?_ rfl rfl
      ⟨rs, ⟨e.state, y⟩, holes,
        ⟨hc.back, hc.at_back, hc.mid, hc.start, hc.lt, hc.empty, hc.state, hc.first⟩, rfl, rfl⟩ ?_⟩
  · rw [View.cells_half rfl]
    exact h.replace_half hc hpart _
  · rw [View.top, View.top, View.cells_half rfl, View.cells_half hpart]
    simp
  · refine h.balance.trans ?_
    simp only [View.tasks, hhand, List.append_assoc, St.goto]
    refine List.Perm.append_left _ (List.Perm.append_left _ ?_)
    simp only [← List.append_assoc]
    exact List.Perm.append_right _ (List.Perm.append_right _
      (List.perm_append_singleton e.task l.result).symm)

/-- A slot is freed by `PopBackHalf`. -/
theorem Inv.halfStore (h : Inv s v) {l : Half τ} (hp : s.pc t = .halfStore l) (y : τ) :
    ∃ v', Inv { s.goto t (Half.next { l with mid := l.mid - 1, n := l.n + 1 }) with
      d := write s.d (slot l.mid) ⟨.kEmpty, y⟩ } v' := by
  obtain ⟨rs, e, holes, hc, hpart, hhand⟩ := h.back_at hp rfl
  have hlt := hc.lt
  have hint : ((l.mid - 1) - l.back).toInt = rs.length - 1 := by
    rw [hc.mid, hc.back]
    exact toInt_mid_sub s.d.mBack (by unfold kCapacity; omega)
  have hr := h.replace_half hc hpart ⟨.kEmpty, y⟩
  rcases List.eq_nil_or_concat rs with rfl | ⟨rs, x, rfl⟩
  · -- the last claimed slot: all cells of the lock holder are gone
    have hnext : Half.next { l with mid := l.mid - 1, n := l.n + 1 } =
        .halfIndex { l with mid := l.mid - 1, n := l.n + 1 } := by
      unfold Half.next
      rw [hint, if_neg (by simp), if_pos (Nat.succ_ne_zero _)]
    rw [hnext]
    refine ⟨{ v with b := v.b + (holes.length + 1 : Nat), backPart := [], backHand := l.result },
      h.back_step ⟨hp, rfl⟩ rfl rfl rfl rfl ?_ ?_ rfl rfl
        ⟨holes.length, by simpa using hlt, by simpa [write] using hc.start, ?_, rfl, rfl⟩ ?_⟩
    · have hd := hr.dropBottom (k := holes.length + 1) (by simp) (fun p h1 h2 => ?_)
        fun _ _ _ => rfl
      · simpa [View.cells, write] using hd
      · obtain ⟨j, rfl⟩ : ∃ j : Nat, p = v.b + j := ⟨(p - v.b).toNat, by omega⟩
        have hj : j < ((([] : List τ).map ready ++ (⟨.kEmpty, y⟩ : Elem τ) :: (holes ++
            (v.waiting.map ready ++ v.frontPart))).length) := by
          simp only [List.map_nil, List.nil_append, List.length_cons, List.length_append]
          omega
        rw [hr.full j hj]
        cases j with
        | zero => rfl
        | succ j =>
          have hj' : j < holes.length := by omega
          simp only [List.map_nil, List.nil_append, List.getElem_cons_succ]
          rw [List.getElem_append_left hj']
          exact hc.empty _ (List.getElem_mem _)
    · rw [View.top, View.top, View.cells_half hpart]
      simp only [View.cells, List.map_nil, List.nil_append, List.length_cons, List.length_append]
      omega
    · show At s.d.mBack (v.b + (holes.length + 1 : Nat) - (holes.length + 1 : Nat))
      rw [Int.add_sub_cancel]
      exact hc.at_back
    · have := h.balance
      simpa [View.tasks, hhand, St.goto] using this
  · rw [List.concat_eq_append] at *
    have hnext : Half.next { l with mid := l.mid - 1, n := l.n + 1 } =
        .halfState { l with mid := l.mid - 1, n := l.n + 1 } := by
      unfold Half.next
      rw [hint, if_pos (by simp)]
    rw [hnext]
    have hcells : (rs ++ [x]).map ready ++ (⟨.kEmpty, y⟩ : Elem τ) :: (holes ++
        (v.waiting.map ready ++ v.frontPart)) = rs.map ready ++ ready x :: (⟨.kEmpty, y⟩ :: holes ++
        (v.waiting.map ready ++ v.frontPart)) := by
      simp
    refine ⟨{ v with backPart := rs.map ready ++ ready x :: ⟨.kEmpty, y⟩ :: holes },
      h.back_step ⟨hp, rfl⟩ rfl rfl rfl rfl ?_ ?_ rfl rfl ?_ h.balance⟩
    · rw [View.cells_half rfl, ← hcells]
      exact hr
    · rw [View.top, View.top, View.cells_half rfl, View.cells_half hpart]
      simp
    · rw [BackOk, if_neg (Nat.succ_ne_zero _)]
      refine ⟨rs, x, ⟨.kEmpty, y⟩ :: holes, ⟨hc.back, hc.at_back, ?_, ?_, ?_, ?_,
        fun he => (by cases he), fun he => (by cases he)⟩, rfl, ?_⟩
      · show l.mid - 1 = _
        rw [hc.mid, List.length_append, List.length_singleton, BitVec.ofNat_add]
        simp [BitVec.sub_eq_add_neg, BitVec.add_assoc, write]
      · show l.start = _
        rw [hc.start]
        simp [Nat.add_assoc, Nat.add_comm 1, write]
      · simp only [List.length_append, List.length_cons] at hlt ⊢
        omega
      · intro c hmem
        rcases List.mem_cons.mp hmem with rfl | hmem
        · rfl
        · exact hc.empty c hmem
      · rw [hhand]
        simp

/-- The store of `mBack` in `PopBackHalf`: the tasks are returned. -/
theorem Inv.halfIndex (h : Inv s v) {l : Half τ} (hp : s.pc t = .halfIndex l) :
    Inv { s.goto t .unlock with
      d := { s.d with mBack := l.start + kIncrement }
      log := { s.log with popped := s.log.popped ++ l.result } } { v with backHand := [] } := by
  obtain ⟨k, hk, hstart, hat, hpart, hhand⟩ := h.back_at hp rfl
  refine h.back_step ⟨hp, rfl⟩ rfl rfl rfl rfl h.ring rfl rfl rfl ⟨?_, hpart, rfl⟩ ?_
  · have := (hat.add k).inc
    rw [hstart]
    rwa [show v.b - ((k + 1 : Nat) : Int) + k + 1 = v.b by omega] at this
  · have := h.balance
    simpa [View.tasks, hhand] using this

/-! ## Every step -/

theorem calculateSize_getD_le (front back : Word) :
    (calculateSize front back).getD kCapacity ≤ kCapacity := by
  unfold calculateSize
  dsimp only
  split_ifs <;> simp only [Option.getD_some, Option.getD_none] <;> unfold kCapacity at * <;> omega

/-- `PopBackHalf` starts its loop. -/
theorem Half.first_round {mBack : Word} {b : Int} (hat : At mBack b) {size : Nat}
    (hsize : size ≤ kCapacity) :
    let mid := if size > 1 then mBack + BitVec.ofNat 32 ((size - 1) / 2) else mBack
    (Half.next (τ := τ) ⟨mBack, mid, 0, 0, []⟩).locked = true ∧
    BackOk (τ := τ) mBack b [] [] (Half.next ⟨mBack, mid, 0, 0, []⟩) := by
  obtain ⟨k, hk, hmid⟩ : ∃ k, k < 512 ∧
      (if size > 1 then mBack + BitVec.ofNat 32 ((size - 1) / 2) else mBack) =
        mBack + BitVec.ofNat 32 k := by
    split_ifs
    · exact ⟨(size - 1) / 2, by unfold kCapacity at hsize; omega, rfl⟩
    · exact ⟨0, by decide, by simp⟩
  have hint : (mBack + BitVec.ofNat 32 k - mBack).toInt = k := by
    have := toInt_mid_sub mBack (show k + 1 ≤ kCapacity by unfold kCapacity; omega)
    rw [BitVec.ofNat_add] at this
    simpa [BitVec.sub_eq_add_neg, BitVec.add_assoc] using this
  intro mid
  have hnext : Half.next (τ := τ) ⟨mBack, mid, 0, 0, []⟩ = .halfState ⟨mBack, mid, 0, 0, []⟩ := by
    unfold Half.next
    rw [if_pos]
    show 0 ≤ (mid - mBack).toInt
    rw [show mid = mBack + BitVec.ofNat 32 k from hmid, hint]
    omega
  rw [hnext]
  refine ⟨rfl, ?_⟩
  rw [BackOk, if_pos rfl]
  exact ⟨⟨rfl, hat, ⟨k, hk, hmid⟩, rfl⟩, rfl, rfl⟩

theorem Half.next_atFront (l : Half τ) : l.next.atFront = false := by
  unfold Half.next
  split_ifs <;> rfl

/-- `SizeOrNotEmpty` returns. -/
theorem Inv.ret (h : Inv s v) {k : Probe} {g : Since} {front back : Word}
    (hp : s.pc t = .sizeFront1 k g front back) : Inv (k.ret s t g front back) v := by
  cases k with
  | half w =>
    obtain ⟨rfl, hat, -, -⟩ := h.back_at hp rfl
    have hsize := calculateSize_getD_le front back
    refine h.quiet ⟨hp, rfl⟩ rfl rfl rfl rfl (Half.first_round hat hsize).1 (fun hf => ?_)
      (fun _ _ _ _ hf => (FrontOk.of_not_atFront (Half.next_atFront _)).mpr hf) fun _ b part hand
        hb => ?_
    · rw [Half.next_atFront] at hf
      cases hf
    · obtain ⟨-, hat, rfl, rfl⟩ := hb
      exact (Half.first_round hat hsize).2
  | size => exact h.quiet ⟨hp, rfl⟩ rfl rfl rfl rfl rfl nofun (fun _ _ _ _ hf => hf) nofun
  | empty => exact h.quiet ⟨hp, rfl⟩ rfl rfl rfl rfl rfl nofun (fun _ _ _ _ hf => hf) nofun
  | popBack =>
    simp only [Probe.ret]
    split
    · exact h.quiet ⟨hp, rfl⟩ rfl rfl rfl rfl rfl nofun (fun _ _ _ _ hf => hf) nofun
    · exact h.quiet ⟨hp, rfl⟩ rfl rfl rfl rfl rfl nofun (fun _ _ _ _ hf => hf) nofun
  | popBackHalf =>
    simp only [Probe.ret]
    split
    · exact h.quiet ⟨hp, rfl⟩ rfl rfl rfl rfl rfl nofun (fun _ _ _ _ hf => hf) nofun
    · exact h.quiet ⟨hp, rfl⟩ rfl rfl rfl rfl rfl nofun (fun _ _ _ _ hf => hf) nofun

/-- An operation at the end `e` gives up. -/
theorem Inv.leave (h : Inv s v) {e : End} {w : Word} {pc : Pc τ} (hp : s.pc t = pc)
    (hpc : (∃ task, pc = .pushState e task w ∨ pc = .pushCas e task w) ∨ pc = .popState e w ∨
      pc = .popCas e w) : Inv (s.goto t e.leave) v := by
  rcases hpc with ⟨task, rfl | rfl⟩ | rfl | rfl <;> cases e
  all_goals first
    | exact h.quiet ⟨hp, rfl⟩ rfl rfl rfl rfl rfl nofun (fun _ _ _ _ hf => hf.2) nofun
    | exact h.quiet ⟨hp, rfl⟩ rfl rfl rfl rfl rfl nofun (fun _ _ _ _ hf => hf) fun _ _ _ _ hb =>
      hb.2

/-- The loop of `PopBackHalf` looks at the next slot, having claimed none. -/
theorem Inv.half_next (h : Inv s v) {l : Half τ} {pc : Pc τ} (hp : s.pc t = pc) (hn : l.n = 0)
    (hlock : pc.locked = true) (hu : ∀ b part hand, BackOk s.d.mBack b part hand pc →
      l.Unclaimed s.d.mBack b ∧ part = [] ∧ hand = []) :
    Inv (s.goto t (Half.next { l with mid := l.mid - 1 })) v := by
  have hat := atFront_eq_false_of_locked hlock
  obtain ⟨hu₀, -, -⟩ := hu _ _ _ (h.back_at hp hlock)
  refine h.quiet ⟨hp, rfl⟩ rfl rfl rfl rfl ((hu₀.next hn).1.trans hlock.symm) (fun hf => ?_)
    (fun _ _ _ _ hf => (FrontOk.of_not_atFront (Half.next_atFront _)).mpr
      ((FrontOk.of_not_atFront hat).mp hf)) fun _ b part hand hb => ?_
  · rw [Half.next_atFront] at hf
    cases hf
  · obtain ⟨hu₁, rfl, rfl⟩ := hu b part hand hb
    exact (hu₁.next hn).2

/-- A step of one thread keeps the invariant. -/
theorem Inv.move {leave : τ → τ} (h : Inv s v) (hmv : Threads.move leave s t = some s') :
    ∃ v', Inv s' v' := by
  cases hp : s.pc t with
  | idle => simp [Threads.move, hp] at hmv
  | sizeFront k g =>
    simp only [Threads.move, hp, Option.some.injEq] at hmv
    subst hmv
    refine ⟨v, h.quiet ⟨hp, rfl⟩ rfl rfl rfl rfl ?_ nofun (fun _ _ _ _ hf => hf) ?_⟩
    · cases k <;> rfl
    · cases k <;> exact fun _ _ _ _ hb => hb
  | sizeBack k g front =>
    simp only [Threads.move, hp, Option.some.injEq] at hmv
    subst hmv
    refine ⟨v, h.quiet ⟨hp, rfl⟩ rfl rfl rfl rfl ?_ nofun (fun _ _ _ _ hf => hf) ?_⟩
    · cases k <;> rfl
    · cases k <;> exact fun _ _ _ _ hb => hb
  | sizeFront1 k g front back =>
    simp only [Threads.move, hp] at hmv
    split_ifs at hmv
    · cases hmv
      refine ⟨v, h.quiet ⟨hp, rfl⟩ rfl rfl rfl rfl ?_ nofun (fun _ _ _ _ hf => hf) ?_⟩
      · cases k <;> rfl
      · cases k <;> exact fun _ _ _ _ hb => hb
    · cases hmv
      exact ⟨v, h.ret hp⟩
  | lock c =>
    simp only [Threads.move, hp] at hmv
    split at hmv
    · rename_i hfree
      cases hmv
      refine ⟨v, h.lock ⟨hp, rfl⟩ rfl ?_ hfree rfl rfl rfl rfl ?_⟩
      · cases c <;> rfl
      · cases c <;> exact fun _ _ _ hb => hb
    · cases hmv
  | unlock =>
    simp only [Threads.move, hp, Option.some.injEq] at hmv
    subst hmv
    exact ⟨v, h.unlock ⟨hp, rfl⟩ rfl rfl rfl⟩
  | pushLoad e task =>
    simp only [Threads.move, hp, Option.some.injEq] at hmv
    subst hmv
    cases e with
    | front =>
      exact ⟨v, h.quiet ⟨hp, rfl⟩ rfl rfl rfl rfl rfl
        (fun _ => h.atFront t (by rw [hp]; rfl)) (fun _ _ _ _ hf => ⟨rfl, hf⟩) nofun⟩
    | back =>
      exact ⟨v, h.quiet ⟨hp, rfl⟩ rfl rfl rfl rfl rfl nofun (fun _ _ _ _ hf => hf)
        fun _ _ _ _ hb => ⟨rfl, hb⟩⟩
  | popLoad e =>
    simp only [Threads.move, hp, Option.some.injEq] at hmv
    subst hmv
    cases e with
    | front =>
      exact ⟨v, h.quiet ⟨hp, rfl⟩ rfl rfl rfl rfl rfl
        (fun _ => h.atFront t (by rw [hp]; rfl)) (fun _ _ _ _ hf => ⟨rfl, hf⟩) nofun⟩
    | back =>
      exact ⟨v, h.quiet ⟨hp, rfl⟩ rfl rfl rfl rfl rfl nofun (fun _ _ _ _ hf => hf)
        fun _ _ _ _ hb => ⟨rfl, hb⟩⟩
  | pushState e task w =>
    simp only [Threads.move, hp] at hmv
    split_ifs at hmv
    · cases hmv
      exact ⟨v, h.leave hp (.inl ⟨task, .inl rfl⟩)⟩
    · cases hmv
      cases e with
      | front =>
        exact ⟨v, h.quiet ⟨hp, rfl⟩ rfl rfl rfl rfl rfl
          (fun _ => h.atFront t (by rw [hp]; rfl)) (fun _ _ _ _ hf => hf) nofun⟩
      | back =>
        exact ⟨v, h.quiet ⟨hp, rfl⟩ rfl rfl rfl rfl rfl nofun (fun _ _ _ _ hf => hf)
          fun _ _ _ _ hb => hb⟩
  | popState e w =>
    simp only [Threads.move, hp] at hmv
    split_ifs at hmv
    · cases hmv
      exact ⟨v, h.leave hp (.inr (.inl rfl))⟩
    · cases hmv
      cases e with
      | front =>
        exact ⟨v, h.quiet ⟨hp, rfl⟩ rfl rfl rfl rfl rfl
          (fun _ => h.atFront t (by rw [hp]; rfl)) (fun _ _ _ _ hf => hf) nofun⟩
      | back =>
        exact ⟨v, h.quiet ⟨hp, rfl⟩ rfl rfl rfl rfl rfl nofun (fun _ _ _ _ hf => hf)
          fun _ _ _ _ hb => hb⟩
  | pushCas e task w =>
    simp only [Threads.move, hp] at hmv
    split_ifs at hmv with he
    · cases hmv
      exact ⟨v, h.leave hp (.inl ⟨task, .inr rfl⟩)⟩
    · cases hmv
      cases e with
      | front => exact ⟨_, h.pushCas_front hp (Classical.not_not.mp he) _⟩
      | back => exact ⟨_, h.pushCas_back hp (Classical.not_not.mp he) _⟩
  | popCas e w =>
    simp only [Threads.move, hp] at hmv
    split_ifs at hmv with he
    · cases hmv
      exact ⟨v, h.leave hp (.inr (.inr rfl))⟩
    · cases hmv
      cases e with
      | front => exact h.popCas_front hp (Classical.not_not.mp he)
      | back => exact h.popCas_back hp (Classical.not_not.mp he)
  | pushIndex e task w =>
    simp only [Threads.move, hp, Option.some.injEq] at hmv
    subst hmv
    cases e with
    | front => exact ⟨_, h.pushIndex_front hp⟩
    | back => exact ⟨_, h.pushIndex_back hp⟩
  | pushMove e task w =>
    simp only [Threads.move, hp, Option.some.injEq] at hmv
    subst hmv
    cases e with
    | front => exact ⟨_, h.pushMove_front hp⟩
    | back => exact ⟨_, h.pushMove_back hp⟩
  | pushStore e task w =>
    simp only [Threads.move, hp, Option.some.injEq] at hmv
    subst hmv
    cases e with
    | front => exact ⟨_, h.pushStore_front hp⟩
    | back => exact ⟨_, h.pushStore_back hp⟩
  | popMove e w =>
    simp only [Threads.move, hp, Option.some.injEq] at hmv
    subst hmv
    cases e with
    | front => exact ⟨_, h.popMove_front hp _⟩
    | back => exact ⟨_, h.popMove_back hp _⟩
  | popStore e w task =>
    simp only [Threads.move, hp, Option.some.injEq] at hmv
    subst hmv
    cases e with
    | front => exact ⟨_, h.popStore_front hp _⟩
    | back => exact ⟨_, h.popStore_back hp _⟩
  | popIndex e w task =>
    simp only [Threads.move, hp, Option.some.injEq] at hmv
    subst hmv
    cases e with
    | front => exact ⟨_, h.popIndex_front hp⟩
    | back => exact ⟨_, h.popIndex_back hp⟩
  | halfLoad =>
    simp only [Threads.move, hp, Option.some.injEq] at hmv
    subst hmv
    exact ⟨v, h.quiet ⟨hp, rfl⟩ rfl rfl rfl rfl rfl nofun (fun _ _ _ _ hf => hf)
      fun _ _ _ _ hb => ⟨rfl, hb⟩⟩
  | halfState l =>
    simp only [Threads.move, hp] at hmv
    split_ifs at hmv with hn
    · cases hmv
      exact ⟨v, h.half_next hp hn rfl fun b part hand hb => by rwa [BackOk, if_pos hn] at hb⟩
    · cases hmv
      refine ⟨v, h.quiet ⟨hp, rfl⟩ rfl rfl rfl rfl rfl nofun (fun _ _ _ _ hf => hf)
        fun _ b part hand hb => ⟨hn, ?_⟩⟩
      rwa [BackOk, if_pos hn] at hb
    · cases hmv
      refine ⟨v, h.quiet ⟨hp, rfl⟩ rfl rfl rfl rfl rfl nofun (fun _ _ _ _ hf => hf)
        fun _ b part hand hb => ?_⟩
      rw [BackOk, if_neg hn] at hb
      obtain ⟨rs, x, holes, hc, hpart, hhand⟩ := hb
      exact ⟨rs, ready x, holes, hc, hpart, hhand⟩
  | halfCas l =>
    simp only [Threads.move, hp] at hmv
    split_ifs at hmv with he
    · cases hmv
      exact ⟨v, h.half_next hp (h.back_at hp rfl).1 rfl fun _ _ _ hb => hb.2⟩
    · cases hmv
      exact h.halfCas hp (Classical.not_not.mp he)
  | halfMove l =>
    simp only [Threads.move, hp, Option.some.injEq] at hmv
    subst hmv
    exact h.halfMove hp _
  | halfStore l =>
    simp only [Threads.move, hp, Option.some.injEq] at hmv
    subst hmv
    exact h.halfStore hp _
  | halfIndex l =>
    simp only [Threads.move, hp, Option.some.injEq] at hmv
    subst hmv
    exact ⟨_, h.halfIndex hp⟩

/-- A call begins at a control point without lock or claim. -/
theorem Call.entry_quiet {g : Log τ} {c : Call τ} {pc : Pc τ} (h : c.entry g t = some pc) :
    pc.locked = false ∧ (pc.atFront = true → t = owner) ∧
    ∀ mFront top part hand, FrontOk mFront top part hand .idle → FrontOk mFront top part hand pc := by
  cases c
  case pushFront =>
    simp only [Call.entry, Option.ite_none_right_eq_some, Option.some.injEq] at h
    obtain ⟨ht, rfl⟩ := h
    exact ⟨rfl, fun _ => ht, fun _ _ _ _ hf => hf⟩
  case popFront =>
    simp only [Call.entry, Option.ite_none_right_eq_some, Option.some.injEq] at h
    obtain ⟨ht, rfl⟩ := h
    exact ⟨rfl, fun _ => ht, fun _ _ _ _ hf => hf⟩
  all_goals
    cases h
    exact ⟨rfl, nofun, fun _ _ _ _ hf => hf⟩

theorem Inv.step {leave : τ → τ} {l : Label τ} (h : Inv s v)
    (hs : Threads.step leave s l = some s') : ∃ v', Inv s' v' := by
  obtain ⟨s₁, hact, rfl⟩ := Option.map_eq_some_iff.mp hs
  cases l with
  | move t =>
    obtain ⟨v', h'⟩ := h.move hact
    exact ⟨v', h'.tick⟩
  | call t c =>
    simp only [act] at hact
    split at hact
    · rename_i hp
      obtain ⟨pc, hpc, rfl⟩ := Option.map_eq_some_iff.mp hact
      obtain ⟨hl, hat, hf⟩ := Call.entry_quiet hpc
      exact ⟨v, Inv.tick (h.quiet ⟨hp, rfl⟩ rfl rfl rfl rfl hl hat (fun _ => hf _) nofun)⟩
    · cases hact

theorem inv_start [Inhabited τ] : Inv (start : St τ) ⟨0, [], [], [], [], []⟩ where
  ring := Ring.holds_nil fun _ => rfl
  front := ⟨rfl, rfl, rfl⟩
  back := ⟨rfl, rfl, rfl⟩
  balance := List.Perm.nil
  locked t := by simp [start, Pc.locked]
  atFront t h := by cases h

theorem inv_of_reach [Inhabited τ] {leave : τ → τ} (hs : (sys leave).Reach Any s) : ∃ v, Inv s v := by
  refine hs.invariant (I := fun s => ∃ v, Inv s v) ?_ ?_
  · rintro s rfl
    exact ⟨_, inv_start⟩
  · rintro s l s' ⟨v, h⟩ - hn
    exact h.step hn

/-! ## What the deque guarantees -/

/-- The position of `mBack`: not above the tasks that wait, and at most one below the cells unless
`PopBackHalf` has emptied its slots. -/
theorem BackOk.index {mBack : Word} {b : Int} {part : List (Elem τ)} {hand : List τ} {pc : Pc τ}
    (h : BackOk mBack b part hand pc) :
    ∃ B : Int, At mBack B ∧ (b - 1 ≤ B ∨ ∃ l, pc = .halfIndex l ∧ b - 512 ≤ B) ∧
      B ≤ b + part.length ∧ (B = b + part.length → ∀ e ∈ part, e.state ≠ .kReady) := by
  have hnil : ∀ {B}, part = [] → At mBack B →
      (b - 1 ≤ B ∨ ∃ l, pc = .halfIndex l ∧ b - 512 ≤ B) → B ≤ b →
      ∃ B : Int, At mBack B ∧ (b - 1 ≤ B ∨ ∃ l, pc = .halfIndex l ∧ b - 512 ≤ B) ∧
        B ≤ b + part.length ∧ (B = b + part.length → ∀ e ∈ part, e.state ≠ .kReady) := by
    rintro B rfl hat h1 h2
    exact ⟨B, hat, h1, by simpa using h2, fun _ => nofun⟩
  have hbusy : ∀ {B x}, part = [⟨.kBusy, x⟩] → At mBack B → b ≤ B → B ≤ b + 1 →
      ∃ B : Int, At mBack B ∧ (b - 1 ≤ B ∨ ∃ l, pc = .halfIndex l ∧ b - 512 ≤ B) ∧
        B ≤ b + part.length ∧ (B = b + part.length → ∀ e ∈ part, e.state ≠ .kReady) := by
    rintro B x rfl hat h1 h2
    refine ⟨B, hat, .inl (by omega), by simpa using h2, fun _ e he => ?_⟩
    rw [List.mem_singleton.mp he]
    exact nofun
  have hclaimed : ∀ {l : Half τ} {rs : List τ} {e : Elem τ} {holes : List (Elem τ)},
      l.Claimed mBack b rs e holes → part = rs.map ready ++ e :: holes →
      ∃ B : Int, At mBack B ∧ (b - 1 ≤ B ∨ ∃ l, pc = .halfIndex l ∧ b - 512 ≤ B) ∧
        B ≤ b + part.length ∧ (B = b + part.length → ∀ e ∈ part, e.state ≠ .kReady) := by
    rintro l rs e holes hc rfl
    refine ⟨b, hc.at_back, .inl (by omega), by omega, fun he => ?_⟩
    simp only [List.length_append, List.length_cons] at he
    omega
  unfold BackOk at h
  split at h
  case h_8 =>
    obtain ⟨rfl, hat, -, x, hx⟩ := h
    exact hbusy hx hat (by omega) (by omega)
  case h_9 =>
    obtain ⟨hat, -, -, x, hx⟩ := h
    exact hbusy hx hat (by omega) (by omega)
  case h_10 => exact hbusy h.2.2.2 h.1 (by omega) (by omega)
  case h_11 =>
    obtain ⟨rfl, hat, x, -, hx⟩ := h
    exact hbusy hx hat (by omega) (by omega)
  case h_12 =>
    obtain ⟨rfl, hat, -, x, hx⟩ := h
    exact hbusy hx hat (by omega) (by omega)
  case h_13 =>
    obtain ⟨rfl, hat, -, hx⟩ := h
    exact hnil hx hat (.inl (by omega)) (by omega)
  case h_14 =>
    split at h
    · exact hnil h.2.1 h.1.at_back (.inl (by omega)) (by omega)
    · obtain ⟨rs, x, holes, hc, hpart, -⟩ := h
      exact hclaimed hc hpart
  case h_15 => exact hnil h.2.2.1 h.2.1.at_back (.inl (by omega)) (by omega)
  case h_16 =>
    obtain ⟨rs, x, holes, hc, hpart, -⟩ := h
    exact hclaimed hc hpart
  case h_17 =>
    obtain ⟨rs, x, holes, hc, hpart, -⟩ := h
    exact hclaimed hc hpart
  case h_18 =>
    obtain ⟨k, hk, -, hat, hx, -⟩ := h
    exact hnil hx hat (.inr ⟨_, rfl, by omega⟩) (by omega)
  case h_19 => exact hnil h.2.1 h.1 (.inl (by omega)) (by omega)
  all_goals exact hnil h.2.2.1 h.2.1 (.inl (by omega)) (by omega)

/-- The position of `mFront`: not below the tasks that wait, and at most one above the cells. -/
theorem FrontOk.index {mFront : Word} {top : Int} {part : List (Elem τ)} {hand : List τ} {pc : Pc τ}
    (h : FrontOk mFront top part hand pc) :
    ∃ F : Int, At mFront F ∧ F ≤ top + 1 ∧ top - part.length ≤ F := by
  have hnil : ∀ {F}, part = [] → At mFront F → F ≤ top + 1 → top ≤ F →
      ∃ F : Int, At mFront F ∧ F ≤ top + 1 ∧ top - part.length ≤ F := by
    rintro F rfl hat h1 h2
    exact ⟨F, hat, h1, by simpa using h2⟩
  have hbusy : ∀ {F x}, part = [⟨.kBusy, x⟩] → At mFront F → F ≤ top → top - 1 ≤ F →
      ∃ F : Int, At mFront F ∧ F ≤ top + 1 ∧ top - part.length ≤ F := by
    rintro F x rfl hat h1 h2
    exact ⟨F, hat, by omega, by simpa using h2⟩
  unfold FrontOk at h
  split at h
  case h_5 =>
    obtain ⟨rfl, hat, -, x, hx⟩ := h
    exact hbusy hx hat (by omega) (by omega)
  case h_6 =>
    obtain ⟨hat, -, -, x, hx⟩ := h
    exact hbusy hx hat (by omega) (by omega)
  case h_7 => exact hbusy h.2.2.2 h.1 (by omega) (by omega)
  case h_8 =>
    obtain ⟨rfl, hat, x, -, hx⟩ := h
    exact hbusy hx hat (by omega) (by omega)
  case h_9 =>
    obtain ⟨rfl, hat, -, x, hx⟩ := h
    exact hbusy hx hat (by omega) (by omega)
  case h_10 =>
    obtain ⟨rfl, hat, -, hx⟩ := h
    exact hnil hx hat (by omega) (by omega)
  case h_11 => exact hnil h.2.1 h.1 (by omega) (by omega)
  all_goals exact hnil h.2.2.1 h.2.1 (by omega) (by omega)

/-- A ready cell of the lock holder is in a slot that `PopBackHalf` has claimed. -/
theorem BackOk.mem_claimed {mBack : Word} {b : Int} {part : List (Elem τ)} {hand : List τ}
    {pc : Pc τ}
    (h : BackOk mBack b part hand pc) {j : Nat} (hj : j < part.length)
    (he : part[j].state = .kReady) : Ring.slot kCapacity (b + j) ∈ pc.claimed := by
  have hnil : part = [] → Ring.slot kCapacity (b + j) ∈ pc.claimed := by
    rintro rfl
    exact absurd hj (Nat.not_lt_zero _)
  have hbusy : ∀ x, part = [⟨.kBusy, x⟩] → Ring.slot kCapacity (b + j) ∈ pc.claimed := by
    rintro x rfl
    have h0 : j = 0 := by simpa using hj
    subst h0
    cases he
  have hslots : ∀ {l : Half τ} {rs : List τ} {e : Elem τ} {holes : List (Elem τ)},
      l.Claimed mBack b rs e holes → part = rs.map ready ++ e :: holes →
      Ring.slot kCapacity (b + j) ∈ l.slots := by
    rintro l rs e holes hc rfl
    have hlt := hc.lt
    have hle : j ≤ rs.length := by
      by_contra hgt
      obtain ⟨i, rfl⟩ : ∃ i, j = rs.length + (i + 1) := ⟨j - rs.length - 1, by omega⟩
      rw [List.getElem_append_right (by simp)] at he
      simp only [List.length_map, Nat.add_sub_cancel_left, List.getElem_cons_succ] at he
      rw [hc.empty _ (List.getElem_mem _)] at he
      cases he
    have hmid : (l.mid - l.back).toNat = rs.length := by
      rw [hc.mid, hc.back, BitVec.toNat_sub, BitVec.toNat_add, BitVec.toNat_ofNat]
      have := mBack.isLt
      omega
    refine List.mem_map.mpr ⟨j, List.mem_range.mpr (by omega), ?_⟩
    rw [hc.back]
    exact (hc.at_back.add j).slot
  unfold BackOk at h
  split at h
  case h_8 => obtain ⟨-, -, -, x, hx⟩ := h; exact hbusy x hx
  case h_9 => obtain ⟨-, -, -, x, hx⟩ := h; exact hbusy x hx
  case h_10 => exact hbusy _ h.2.2.2
  case h_11 => obtain ⟨-, -, x, -, hx⟩ := h; exact hbusy x hx
  case h_12 => obtain ⟨-, -, -, x, hx⟩ := h; exact hbusy x hx
  case h_13 => exact hnil h.2.2.2
  case h_14 =>
    split at h
    · exact hnil h.2.1
    · rename_i hn
      obtain ⟨rs, x, holes, hc, hpart, -⟩ := h
      rw [Pc.claimed, if_neg hn]
      exact hslots hc hpart
  case h_15 => exact hnil h.2.2.1
  case h_16 =>
    obtain ⟨rs, x, holes, hc, hpart, -⟩ := h
    exact hslots hc hpart
  case h_17 =>
    obtain ⟨rs, x, holes, hc, hpart, -⟩ := h
    exact hslots hc hpart
  case h_18 =>
    obtain ⟨k, -, -, -, hx, -⟩ := h
    exact hnil hx
  case h_19 => exact hnil h.2.1
  all_goals exact hnil h.2.2.1

theorem St.claimed_eq (s : St τ) : s.claimed = s.holder.claimed := by
  unfold St.claimed St.holder
  cases s.mMutex <;> rfl

/-- The position of the first task that waits. -/
def View.lo (v : View τ) : Int := v.b + v.backPart.length

/-- The position above the last task that waits. -/
def View.hi (v : View τ) : Int := v.lo + v.waiting.length

theorem View.hi_eq (v : View τ) : v.hi = v.top - v.frontPart.length := by
  simp only [View.hi, View.lo, View.top, View.cells, List.length_append, List.length_map]
  omega

/-- The tasks that wait are ready. -/
theorem Inv.ready_of_mem (h : Inv s v) {p : Int} (h1 : v.lo ≤ p) (h2 : p < v.hi) :
    (s.d.mArray (Ring.slot kCapacity p)).state = .kReady := by
  obtain ⟨j, rfl⟩ : ∃ j : Nat, p = v.b + (v.backPart.length + j : Nat) :=
    ⟨(p - v.lo).toNat, by unfold View.lo at h1; unfold View.lo; omega⟩
  have hj : j < v.waiting.length := by
    unfold View.hi View.lo at h2
    omega
  have hlt : v.backPart.length + j < v.cells.length := by
    simp only [View.cells, List.length_append, List.length_map]
    omega
  have hget : v.cells[v.backPart.length + j]? = some (ready v.waiting[j]) := by
    rw [View.cells, List.getElem?_append_right (by omega), Nat.add_sub_cancel_left,
      List.getElem?_append_left (by simpa using hj), List.getElem?_map, List.getElem?_eq_getElem hj]
    rfl
  rw [List.getElem?_eq_getElem hlt, Option.some.injEq] at hget
  rw [h.ring.full _ hlt, hget]
  rfl

/-- Every ready slot is that of a task that waits, or claimed. -/
theorem Inv.mem_of_ready (h : Inv s v) {i : Fin kCapacity} (hi : (s.d.mArray i).state = .kReady) :
    (∃ j, ∃ hj : j < v.backPart.length, v.backPart[j].state = .kReady ∧
      Ring.slot kCapacity (v.b + j) = i) ∨
    ∃ p, v.lo ≤ p ∧ p < v.hi ∧ Ring.slot kCapacity p = i := by
  obtain ⟨p, h1, h2, rfl⟩ := Ring.exists_slot v.b i
  obtain ⟨j, rfl⟩ : ∃ j : Nat, p = v.b + j := ⟨(p - v.b).toNat, by omega⟩
  have hlt : j < v.cells.length := by
    by_contra hge
    rw [h.ring.free (v.b + j) (by omega) h2] at hi
    cases hi
  have hfull := h.ring.full j hlt
  rw [hfull] at hi
  by_cases hb : j < v.backPart.length
  · refine .inl ⟨j, hb, ?_, rfl⟩
    simp only [View.cells] at hi
    rwa [List.getElem_append_left hb] at hi
  · refine .inr ⟨v.b + j, by unfold View.lo; omega, ?_, rfl⟩
    by_contra hge
    -- above the tasks that wait there is only the owner's busy cell
    have hmem : v.cells[j] ∈ v.frontPart := by
      have hlen : v.backPart.length + v.waiting.length ≤ j := by
        unfold View.hi View.lo at hge
        omega
      have hget : v.cells[j]? = v.frontPart[j - v.backPart.length - v.waiting.length]? := by
        rw [View.cells, List.getElem?_append_right (by omega),
          List.getElem?_append_right (by rw [List.length_map]; omega), List.length_map]
      rw [List.getElem?_eq_getElem hlt] at hget
      exact List.mem_of_getElem? hget.symm
    rw [h.front.busy _ hmem] at hi
    cases hi

/-- The ready slots form a window between the two indices, apart from those that a `PopBackHalf` is
emptying. -/
def Window (s : St τ) : Prop :=
  ∃ B lo hi F : Int, At s.d.mBack B ∧ At s.d.mFront F ∧ B ≤ lo ∧ lo ≤ hi ∧ hi ≤ F ∧
    F - B < 2 * kCapacity ∧
    (∀ p, lo ≤ p → p < hi → (s.d.mArray (Ring.slot kCapacity p)).state = .kReady) ∧
    ∀ i, (s.d.mArray i).state = .kReady →
      i ∈ s.claimed ∨ ∃ p, lo ≤ p ∧ p < hi ∧ Ring.slot kCapacity p = i

theorem Inv.window (h : Inv s v) : Window s := by
  obtain ⟨B, hB, hB1, hB2, -⟩ := h.back.index
  have hB1 : v.b - 512 ≤ B := hB1.elim (by omega) fun ⟨_, _, h⟩ => h
  obtain ⟨F, hF, hF1, hF2⟩ := h.front.index
  have hle := h.ring.le
  refine ⟨B, v.lo, v.hi, F, hB, hF, hB2, by unfold View.hi; omega, by rw [View.hi_eq]; exact hF2,
    ?_,
    fun p h1 h2 => h.ready_of_mem h1 h2, fun i hi => ?_⟩
  · unfold View.top at hF1
    unfold kCapacity at *
    omega
  · rcases h.mem_of_ready hi with ⟨j, hj, he, rfl⟩ | hp
    · rw [St.claimed_eq]
      exact .inl (h.back.mem_claimed hj he)
    · exact .inr hp

/-- When no thread is in a call, the deque holds the tasks that are pushed and not popped. -/
theorem Inv.quiescent (h : Inv s v) (hidle : ∀ t, s.pc t = .idle) :
    ∃ b l, Holds s.d b l ∧ s.log.pushed.Perm (s.log.popped ++ l) := by
  have hmutex : s.mMutex = none := by
    cases hx : s.mMutex with
    | none => rfl
    | some t =>
      have := (h.locked t).mpr hx
      rw [hidle] at this
      cases this
  have hb := h.back
  rw [St.holder, hmutex] at hb
  obtain ⟨hB, hbp, hbh⟩ := hb
  have hf := h.front
  rw [hidle] at hf
  obtain ⟨hF, hfp, hfh⟩ := hf
  have hcells : v.cells = v.waiting.map ready := by simp [View.cells, hbp, hfp]
  have hr := h.ring
  rw [hcells] at hr
  refine ⟨v.b, v.waiting, ⟨⟨?_, fun i hi => ?_, fun p h1 h2 => ?_⟩, ?_, hB⟩, ?_⟩
  · simpa using hr.le
  · have := hr.full i (by simpa using hi)
    simpa [ready] using this
  · exact hr.free p (by simpa using h1) h2
  · rw [View.top, hcells, List.length_map] at hF
    exact hF
  · have := h.balance
    simpa [View.tasks, hbh, hfh] using this

/-- What the deque guarantees in a state of a run. -/
structure Correct (s : St τ) : Prop where
  /-- Every task popped was pushed, and is popped at most once. -/
  popped : s.log.popped.Subperm s.log.pushed
  /-- When no thread is in a call, the ready slots hold the tasks pushed and not popped. -/
  quiescent : (∀ t, s.pc t = .idle) → ∃ b l, Holds s.d b l ∧ s.log.pushed.Perm (s.log.popped ++ l)
  window : Window s
  /-- The assertion of `PopBackHalf`. -/
  assertion : ∀ t h, s.pc t = .halfState h → h.n ≠ 0 → (s.d.mArray (slot h.mid)).state = .kReady

theorem Inv.correct (h : Inv s v) : Correct s where
  popped := (List.sublist_append_left _ _).subperm.trans h.balance.symm.subperm
  quiescent := h.quiescent
  window := h.window
  assertion t l hp hn := by
    have hb := h.back_at hp rfl
    rw [BackOk, if_neg hn] at hb
    obtain ⟨rs, x, holes, hc, hpart, -⟩ := hb
    rw [h.half_cell hc hpart]
    rfl

/-- **No task is lost or duplicated**: one owner at the front, any number of threads at the back,
any interleaving. -/
theorem deque_correct [Inhabited τ] (leave : τ → τ) (s : St τ) (hs : (sys leave).Reach Any s) :
    Correct s := by
  obtain ⟨v, h⟩ := inv_of_reach hs
  exact h.correct

/-- The owner pushes a task, thread 2 pushes one at the back, and thread 1 takes half of them. -/
def stealLabels : List (Label Nat) :=
  [.call 0 (.pushFront 7), .move 0, .move 0, .call 2 (.pushBack 8), .move 0, .move 2, .move 0,
    .move 2,
    .move 2, .move 2, .move 0, .move 2, .move 0, .move 2, .move 2, .move 2] ++
    .call 1 .popBackHalf :: List.replicate 14 (.move 1)

/-- The state after `stealLabels`. -/
def stealState : St Nat := (runLabels (step id) start stealLabels).getD start

theorem deque_correct_steal : stealState.log.popped = [8] ∧ Correct stealState :=
  ⟨by decide, deque_correct id stealState
    (reach_runLabels (fun _ => True) (.init rfl) stealLabels (fun _ _ => trivial) (by rfl))⟩

end Threads

end TaskDeque

end AsyncLib
