import AsyncLib.Coroutine.Task
import Mathlib.Algebra.Order.Interval.Multiset
import Mathlib.Order.Interval.Multiset
import Mathlib.Order.Interval.Finset.Nat
import Mathlib.Tactic.Abel

/-!
# `SyncWait` runs a coroutine as its body means

* `Forest`, `Entries`: the frames that the variables of a coroutine own, alone and with what the
  variables mean. `Ran`: a run of one coroutine leaves the frames of the others as they are, and each
  frame that it owned or made is destroyed or still its own.
* `Forest.destroys`: the destructors of variables destroy all that they own, each frame once.
* `runs`: by induction on a body, the machine ends it with the outcome that `eval` gives, and resumes
  its continuation. A child is `Ready` from its call on, and `awaits` uses this at its first `co_await`.
* `syncWait_runs`: the run of `SyncWait` and of the end of its `Task`.
-/

namespace AsyncLib

namespace TaskPromise

variable {S V E : Type} {m m' : Machine S V E}

/-- The coroutine frames by their addresses. -/
abbrev Frames (S V E : Type) := Nat → Option (Frame S V E)

/-! ## What a coroutine owns -/

/-- `G` has the frames of `fp` as `F`. -/
def Agree (F G : Frames S V E) (fp : Multiset Nat) : Prop := ∀ x ∈ fp, G x = F x

/-- The variables `hs` own the frames `fp`, which own the frames of their variables in turn. -/
inductive Forest (F : Frames S V E) : List (Option Nat) → Multiset Nat → Prop
  | nil : Forest F [] 0
  | null {hs : List (Option Nat)} {fp : Multiset Nat} : Forest F hs fp → Forest F (none :: hs) fp
  | cons {x : Nat} {f : Frame S V E} {hs : List (Option Nat)} {fp₁ fp : Multiset Nat} :
    F x = some f → Forest F f.tasks fp₁ → Forest F hs fp → Forest F (some x :: hs) (x ::ₘ fp₁ + fp)

variable {F G : Frames S V E}

theorem Agree.mono {fp fp' : Multiset Nat} (h : Agree F G fp') (hle : fp ≤ fp') : Agree F G fp :=
  fun x hx => h x (Multiset.mem_of_le hle hx)

theorem Forest.agree {hs : List (Option Nat)} {fp : Multiset Nat} (h : Forest F hs fp)
    (ha : Agree F G fp) : Forest G hs fp := by
  induction h with
  | nil => exact .nil
  | null _ ih => exact .null (ih ha)
  | @cons x f hs fp₁ fp hx _ _ ih₁ ih =>
    refine .cons ((ha x (by simp)).trans hx) (ih₁ fun y hy => ha y ?_) (ih fun y hy => ha y ?_)
    · simp [hy]
    · simp [hy]

/-- The first `n` variables and the others. -/
theorem Forest.split {hs : List (Option Nat)} {fp : Multiset Nat} (h : Forest F hs fp) (n : Nat) :
    ∃ fp₁ fp₂, Forest F (hs.take n) fp₁ ∧ Forest F (hs.drop n) fp₂ ∧ fp = fp₁ + fp₂ := by
  induction h generalizing n with
  | nil => exact ⟨0, 0, by simpa using .nil, by simpa using .nil, rfl⟩
  | @null hs fp h ih =>
    cases n with
    | zero => exact ⟨0, fp, .nil, .null h, (zero_add fp).symm⟩
    | succ n =>
      obtain ⟨fp₁, fp₂, h1, h2, rfl⟩ := ih n
      exact ⟨fp₁, fp₂, .null h1, h2, rfl⟩
  | @cons x f hs fp₀ fp hx h₀ h _ ih =>
    cases n with
    | zero => exact ⟨0, _, .nil, .cons hx h₀ h, (zero_add _).symm⟩
    | succ n =>
      obtain ⟨fp₁, fp₂, h1, h2, rfl⟩ := ih n
      exact ⟨x ::ₘ fp₀ + fp₁, fp₂, .cons hx h₀ h1, h2, (add_assoc _ _ _).symm⟩

/-! ## Runs of the machine -/

/-- The machine makes steps. -/
def Steps : Machine S V E → Machine S V E → Prop :=
  Relation.ReflTransGen fun m m' => m.step = some m'

/-- The frames `fp` were never destroyed, and no operation waits for a worker. -/
structure Live (m : Machine S V E) (fp : Multiset Nat) : Prop where
  nodup : (↑m.destroyed + fp).Nodup
  lt : ∀ x ∈ (↑m.destroyed + fp : Multiset Nat), x < m.next
  pool : m.pool = []

/-- The coroutine `h`, which owns `fp`, runs from `m` to `m'`, and owns `fp'` then: it changes no other
frame, and every frame that it owned or made is destroyed or still its own. -/
structure Ran (m m' : Machine S V E) (h : Nat) (fp fp' : Multiset Nat) : Prop where
  steps : Steps m m'
  next : m.next ≤ m'.next
  kept : ∀ x < m.next, x ≠ h → x ∉ fp → m'.frames x = m.frames x
  owned : (↑m'.destroyed + fp' : Multiset Nat) = ↑m.destroyed + fp + Multiset.Ico m.next m'.next
  destroyed : m.destroyed <+: m'.destroyed
  pool : m'.pool = []

theorem Live.mono {fp fp' : Multiset Nat} (h : Live m fp') (hle : fp ≤ fp') : Live m fp where
  nodup := Multiset.nodup_of_le (add_le_add_right hle _) h.nodup
  lt x hx := h.lt x (Multiset.mem_of_le (add_le_add_right hle _) hx)
  pool := h.pool

theorem Live.mem_lt {fp : Multiset Nat} (h : Live m fp) {x : Nat} (hx : x ∈ fp) : x < m.next :=
  h.lt x (Multiset.mem_add.mpr (.inr hx))

theorem Live.not_mem {h : Nat} {fp : Multiset Nat} (hl : Live m (h ::ₘ fp)) : h ∉ fp := by
  have hn := (Multiset.nodup_add.mp hl.nodup).2.1
  exact (Multiset.nodup_cons.mp hn).1

namespace Ran

variable {m₁ m₂ : Machine S V E} {h : Nat} {fp fp₁ fp₂ : Multiset Nat}

theorem live (hr : Ran m m₁ h fp fp₁) (hl : Live m (h ::ₘ fp)) : Live m₁ (h ::ₘ fp₁) := by
  have heq : (↑m₁.destroyed + h ::ₘ fp₁ : Multiset Nat) =
      ↑m.destroyed + h ::ₘ fp + Multiset.Ico m.next m₁.next := by
    rw [Multiset.add_cons, hr.owned, Multiset.add_cons, Multiset.cons_add]
  refine ⟨?_, fun x hx => ?_, hr.pool⟩
  · rw [heq]
    refine Multiset.nodup_add.mpr ⟨hl.nodup, Multiset.nodup_Ico, ?_⟩
    refine Multiset.disjoint_left.mpr fun hx hx' => ?_
    exact Nat.not_lt.mpr (Multiset.mem_Ico.mp hx').1 (hl.lt _ hx)
  · rw [heq] at hx
    rcases Multiset.mem_add.mp hx with hx | hx
    · exact Nat.lt_of_lt_of_le (hl.lt x hx) hr.next
    · exact (Multiset.mem_Ico.mp hx).2

/-- A frame that the coroutine owns now is one that it owned, or a new one. -/
theorem old_or_new (hr : Ran m m₁ h fp fp₁) (hl : Live m (h ::ₘ fp)) {x : Nat} (hx : x ∈ fp₁) :
    x ∈ fp ∨ m.next ≤ x := by
  have hm : x ∈ (↑m.destroyed + fp + Multiset.Ico m.next m₁.next : Multiset Nat) :=
    hr.owned ▸ Multiset.mem_add.mpr (.inr hx)
  rcases Multiset.mem_add.mp hm with hm | hm
  · rcases Multiset.mem_add.mp hm with hd | hm
    · have hdis := (Multiset.nodup_add.mp (hr.live hl).nodup).2.2
      have hd' := hr.destroyed.subset (Multiset.mem_coe.mp hd)
      exact absurd (Multiset.mem_cons_of_mem hx) (Multiset.disjoint_left.mp hdis (Multiset.mem_coe.mpr hd'))
    · exact .inl hm
  · exact .inr (Multiset.mem_Ico.mp hm).1

theorem trans (hr₁ : Ran m m₁ h fp fp₁) (hr₂ : Ran m₁ m₂ h fp₁ fp₂) (hl : Live m (h ::ₘ fp)) :
    Ran m m₂ h fp fp₂ where
  steps := hr₁.steps.trans hr₂.steps
  next := Nat.le_trans hr₁.next hr₂.next
  kept x hx hne hnot := by
    have hnot₁ : x ∉ fp₁ := fun hm => (hr₁.old_or_new hl hm).elim hnot (Nat.not_le.mpr hx)
    rw [hr₂.kept x (Nat.lt_of_lt_of_le hx hr₁.next) hne hnot₁, hr₁.kept x hx hne hnot]
  owned := by
    rw [hr₂.owned, hr₁.owned, add_assoc, Multiset.Ico_add_Ico_eq_Ico hr₁.next hr₂.next]
  destroyed := hr₁.destroyed.trans hr₂.destroyed
  pool := hr₂.pool

/-- The run of a coroutine `x` that `h` owns is a run of `h`. -/
theorem owner {x : Nat} (hr : Ran m m₁ x fp fp₁) (rest : Multiset Nat) :
    Ran m m₁ h (x ::ₘ fp + rest) (x ::ₘ fp₁ + rest) where
  steps := hr.steps
  next := hr.next
  kept y hy _ hnot := by
    refine hr.kept y hy (fun he => hnot ?_) fun hm => hnot ?_
    · simp [he]
    · simp [hm]
  owned := by
    rw [Multiset.cons_add, Multiset.add_cons, ← add_assoc, hr.owned, Multiset.cons_add,
      Multiset.add_cons, Multiset.cons_add, add_right_comm, add_assoc _ fp rest]
  destroyed := hr.destroyed
  pool := hr.pool

end Ran

/-! ## Steps -/

/-- A step that changes frames of the coroutine only. -/
theorem Ran.single {m₁ : Machine S V E} {h : Nat} {fp : Multiset Nat} (hs : m.step = some m₁)
    (hf : ∀ y, y ≠ h → y ∉ fp → m₁.frames y = m.frames y) (hn : m₁.next = m.next)
    (hd : m₁.destroyed = m.destroyed) (hp : m₁.pool = []) : Ran m m₁ h fp fp where
  steps := .single hs
  next := Nat.le_of_eq hn.symm
  kept x _ hne hnot := hf x hne hnot
  owned := by simp [hn, hd]
  destroyed := by simp [hd]
  pool := hp

@[simp] theorem put_self (m : Machine S V E) (h : Nat) (f : Frame S V E) :
    (m.put h f).frames h = some f := Function.update_self ..

theorem put_of_ne {h x : Nat} (f : Frame S V E) (hne : x ≠ h) :
    (m.put h f).frames x = m.frames x := Function.update_of_ne hne _ _

theorem agree_put {h : Nat} {f : Frame S V E} {fp : Multiset Nat} (hnot : h ∉ fp) :
    Agree m.frames (m.put h f).frames fp :=
  fun _ hx => put_of_ne f fun he => hnot (he ▸ hx)

/-- The machine executes the coroutine `h`. -/
theorem step_resume {h : Nat} {f : Frame S V E} (hc : m.control = .resume (.task h))
    (hf : m.frames h = some f) : m.step = m.resume h f := by
  simp only [Machine.step, hc, hf, Option.bind_some]

theorem ico_succ (n : Nat) : Multiset.Ico n (n + 1) = {n} :=
  congrArg Finset.val (Nat.Ico_succ_singleton n)

/-! ## Destruction -/

theorem owned_cons (x : Nat) (hs : List (Option Nat)) : owned (some x :: hs) = owned hs ++ [x] := by
  simp [owned]

theorem owned_null (hs : List (Option Nat)) : owned (none :: hs) = owned hs := by
  simp [owned]

/-- What the destruction of the frames `fp` leaves. -/
structure Freed (m m' : Machine S V E) (fp : Multiset Nat) : Prop where
  steps : Steps m m'
  frames : ∀ x, m'.frames x = if x ∈ fp then none else m.frames x
  next : m'.next = m.next
  state : m'.state = m.state
  owned : (↑m'.destroyed : Multiset Nat) = ↑m.destroyed + fp
  destroyed : m.destroyed <+: m'.destroyed
  pool : m'.pool = m.pool

theorem Freed.trans {m₁ m₂ : Machine S V E} {fp₁ fp₂ : Multiset Nat} (h₁ : Freed m m₁ fp₁)
    (h₂ : Freed m₁ m₂ fp₂) : Freed m m₂ (fp₁ + fp₂) where
  steps := h₁.steps.trans h₂.steps
  frames x := by
    rw [h₂.frames, h₁.frames]
    by_cases hx : x ∈ fp₂
    · simp [hx]
    · simp [hx]
  next := h₂.next.trans h₁.next
  state := h₂.state.trans h₁.state
  owned := by rw [h₂.owned, h₁.owned, add_assoc]
  destroyed := h₁.destroyed.trans h₂.destroyed
  pool := h₂.pool.trans h₁.pool

/-- One frame is destroyed, and what it owns is next. -/
theorem frees {x : Nat} {f : Frame S V E} {todo : List Nat} {owner : Option Nat}
    (hc : m.control = .destroy (x :: todo) owner) (hx : m.frames x = some f) :
    ∃ m', Freed m m' {x} ∧ m'.control = .destroy (owned f.tasks ++ todo) owner := by
  refine ⟨{ m with
    frames := Function.update m.frames x none
    control := .destroy (owned f.tasks ++ todo) owner
    destroyed := m.destroyed ++ [x] }, ⟨.single ?_, fun y => ?_, rfl, rfl, ?_, ?_, rfl⟩, rfl⟩
  · simp only [Machine.step, hc, hx, Option.map_some]
  · by_cases hy : y = x
    · simp [hy]
    · simp [hy]
  · simp [← Multiset.coe_add]
  · exact List.prefix_append _ _

/-- **The destructors of variables destroy all that they own, each frame once.** -/
theorem Forest.destroys {hs : List (Option Nat)} {fp : Multiset Nat} (hf : Forest F hs fp)
    (todo : List Nat) (owner : Option Nat) (hc : m.control = .destroy (owned hs ++ todo) owner)
    (ha : Agree F m.frames fp) (hn : fp.Nodup) :
    ∃ m', Freed m m' fp ∧ m'.control = .destroy todo owner := by
  induction hf generalizing m todo with
  | nil =>
    refine ⟨m, ⟨.refl, fun x => by simp, rfl, rfl, by simp, List.prefix_rfl, rfl⟩, by simpa [TaskPromise.owned] using hc⟩
  | null _ ih => exact ih todo (by rw [hc, owned_null]) ha hn
  | @cons x f hs fp₁ fp hx _ _ ih₁ ih =>
    obtain ⟨hn₁, hn₂, hdis⟩ := Multiset.nodup_add.mp hn
    obtain ⟨hx₁, hn₁⟩ := Multiset.nodup_cons.mp hn₁
    -- the later variables first, then `x` and what it owns
    obtain ⟨m₁, h₁, hc₁⟩ := ih (m := m) (x :: todo) (by rw [hc, owned_cons]; simp)
      (ha.mono (Multiset.le_add_left _ _)) hn₂
    have hx₀ : m₁.frames x = some f := by
      rw [h₁.frames, if_neg (Multiset.disjoint_left.mp hdis (Multiset.mem_cons_self x fp₁))]
      exact (ha x (by simp)).trans hx
    obtain ⟨m₂, h₂, hc₂⟩ := frees hc₁ hx₀
    obtain ⟨m₃, h₃, hc₃⟩ := ih₁ _ hc₂ (fun y hy => by
      have hne : y ≠ x := fun he => hx₁ (he ▸ hy)
      rw [h₂.frames, if_neg (by simpa using hne), h₁.frames,
        if_neg (Multiset.disjoint_left.mp hdis (Multiset.mem_cons_of_mem hy))]
      exact ha y (by simp [hy])) hn₁
    refine ⟨m₃, ?_, hc₃⟩
    have heq : fp + {x} + fp₁ = x ::ₘ fp₁ + fp := by
      rw [← Multiset.singleton_add]
      abel
    exact heq ▸ (h₁.trans h₂).trans h₃

/-! ## The end of a coroutine -/

/-- The coroutine `h` is done with the result `r`, owns `fp`, and has resumed `c`. -/
structure Done (m : Machine S V E) (h : Nat) (c : Handle) (r : Result V E) (fp : Multiset Nat) :
    Prop where
  control : m.control = .resume c
  frame : ∃ f, m.frames h = some f ∧ f.point = .done ∧ f.result = some r ∧ Forest m.frames f.tasks fp

/-- The coroutine `h` destroys the variables `hs`, and goes on with the frame `f`. -/
theorem destructs {h : Nat} {f : Frame S V E} {hs : List (Option Nat)} {fp₁ fp₂ : Multiset Nat}
    (hstep : m.step = some ({ m with control := .destroy (owned hs) (some h) }.put h f))
    (hfor : Forest m.frames hs fp₂) (hl : Live m (h ::ₘ (fp₁ + fp₂))) :
    ∃ m₂, Ran m m₂ h (fp₁ + fp₂) fp₁ ∧ m₂.control = .resume (.task h) ∧ m₂.frames h = some f ∧
      m₂.state = m.state ∧ Agree m.frames m₂.frames fp₁ := by
  have hnot := hl.not_mem
  have hnot₂ : h ∉ fp₂ := fun hm => hnot (Multiset.mem_add.mpr (.inr hm))
  obtain ⟨-, hnd, -⟩ := Multiset.nodup_add.mp hl.nodup
  obtain ⟨-, hnd₂, hdis⟩ := Multiset.nodup_add.mp (Multiset.nodup_cons.mp hnd).2
  let m₁ : Machine S V E := { m with control := .destroy (owned hs) (some h) }.put h f
  obtain ⟨m₂, hfr, hc₂⟩ := hfor.destroys (m := m₁) [] (some h)
    (by simp [m₁, Machine.put]) (agree_put hnot₂) hnd₂
  have hs₂ : m₂.step = some { m₂ with control := .resume (.task h) } := by
    simp only [Machine.step, hc₂]
  have hkept : ∀ y, y ≠ h → y ∉ fp₂ → m₂.frames y = m.frames y := fun y hne hy => by
    rw [hfr.frames, if_neg hy]
    exact put_of_ne _ hne
  have hnext : m₂.next = m.next := hfr.next
  have hran : Ran m { m₂ with control := .resume (.task h) } h (fp₁ + fp₂) fp₁ :=
    { steps := .trans (.single hstep) (.trans hfr.steps (.single hs₂))
      next := Nat.le_of_eq hnext.symm
      kept := fun y _ hne hy => hkept y hne fun hm => hy (Multiset.mem_add.mpr (.inr hm))
      owned := by
        show (↑m₂.destroyed + fp₁ : Multiset Nat) =
          ↑m.destroyed + (fp₁ + fp₂) + Multiset.Ico m.next m₂.next
        rw [hnext, Multiset.Ico_self, hfr.owned]
        show ↑m.destroyed + fp₂ + fp₁ = _
        abel
      destroyed := hfr.destroyed
      pool := hfr.pool.trans hl.pool }
  refine ⟨_, hran, rfl, ?_, hfr.state, fun y hy => hkept y (fun heq => hnot ?_) ?_⟩
  · show m₂.frames h = some f
    rw [hfr.frames, if_neg hnot₂]
    exact put_self _ _ _
  · exact Multiset.mem_add.mpr (.inl (heq ▸ hy))
  · exact Multiset.disjoint_left.mp hdis hy

/-- A body that is left destroys its locals, and resumes its continuation. -/
theorem closes {h : Nat} {f : Frame S V E} {c : Handle} {r : Result V E} {fp : Multiset Nat}
    (hs : m.step = some (m.close h f r)) (hcont : f.mContinuation = some c)
    (hfor : Forest m.frames f.tasks fp) (hl : Live m (h ::ₘ fp)) :
    ∃ m' fp', Ran m m' h fp fp' ∧ Done m' h c r fp' ∧ m'.state = m.state := by
  obtain ⟨fp₁, fp₂, h₁, h₂, rfl⟩ := hfor.split f.params
  obtain ⟨m₂, hr, hc₂, hframe, hstate, hagree⟩ := destructs hs h₂ hl
  have hl₂ := hr.live hl
  let g : Frame S V E := ⟨.done, f.params, f.tasks.take f.params, some c, some r⟩
  let m₃ : Machine S V E := { m₂ with control := .resume c }.put h g
  have hs₂ : m₂.step = some m₃ := by
    rw [step_resume hc₂ hframe]
    simp only [Machine.resume, hcont, Option.map_some]
    rfl
  have hr₂ : Ran m₂ m₃ h fp₁ fp₁ := .single hs₂ (fun y hne _ => put_of_ne _ hne) rfl rfl hr.pool
  refine ⟨m₃, fp₁, hr.trans hr₂ hl, ⟨rfl, g, put_self _ _ _, rfl, rfl, ?_⟩, hstate⟩
  exact (h₁.agree hagree).agree (agree_put hl₂.not_mem)

/-! ## Variables and what they mean -/

/-- The coroutine `h`, which owns `fp`, ends with the outcome `out`, and resumes `c`. -/
def Outcome (m : Machine S V E) (h : Nat) (c : Handle) (fp : Multiset Nat) (out : Result V E × S) :
    Prop :=
  ∃ m' fp', Ran m m' h fp fp' ∧ Done m' h c out.1 fp' ∧ m'.state = out.2

/-- The coroutine `x` owns `fp`, and does what `run` says when it is resumed for the first time. -/
def Ready (F : Frames S V E) (x : Nat) (fp : Multiset Nat) (run : S → Result V E × S) : Prop :=
  ∀ (m : Machine S V E) (f : Frame S V E) (c : Handle), F x = some f → Agree F m.frames fp →
    m.frames x = some { f with mContinuation := some c } → m.control = .resume (.task x) →
    Live m (x ::ₘ fp) → Outcome m x c fp (run m.state)

/-- The variables `hs` own `fp` and mean `ts`. -/
inductive Entries (F : Frames S V E) : List (Option Nat) → List (Thunk S V E) → Multiset Nat → Prop
  | nil : Entries F [] [] 0
  | null {hs : List (Option Nat)} {ts : List (Thunk S V E)} {fp : Multiset Nat} :
    Entries F hs ts fp → Entries F (none :: hs) (.null :: ts) fp
  | done {x : Nat} {f : Frame S V E} {r : Result V E} {hs : List (Option Nat)}
    {ts : List (Thunk S V E)} {fp₁ fp : Multiset Nat} :
    F x = some f → f.point = .done → f.result = some r → Forest F f.tasks fp₁ → Entries F hs ts fp →
    Entries F (some x :: hs) (.done r :: ts) (x ::ₘ fp₁ + fp)
  | delayed {x : Nat} {f : Frame S V E} {run : S → Result V E × S} {hs : List (Option Nat)}
    {ts : List (Thunk S V E)} {fp₁ fp : Multiset Nat} :
    F x = some f → f.isDone = false → Forest F f.tasks fp₁ → Ready F x fp₁ run → Entries F hs ts fp →
    Entries F (some x :: hs) (.delayed run :: ts) (x ::ₘ fp₁ + fp)

namespace Entries

variable {hs hs' : List (Option Nat)} {ts ts' : List (Thunk S V E)} {fp fp' : Multiset Nat}

theorem forest (h : Entries F hs ts fp) : Forest F hs fp := by
  induction h with
  | nil => exact .nil
  | null _ ih => exact .null ih
  | done hx _ _ hf _ ih => exact .cons hx hf ih
  | delayed hx _ hf _ _ ih => exact .cons hx hf ih

theorem length (h : Entries F hs ts fp) : ts.length = hs.length := by
  induction h with
  | nil => rfl
  | null _ ih | done _ _ _ _ _ ih | delayed _ _ _ _ _ ih => simp [ih]

theorem agree (h : Entries F hs ts fp) (ha : Agree F G fp) : Entries G hs ts fp := by
  induction h with
  | nil => exact .nil
  | null _ ih => exact .null (ih ha)
  | @done x f r hs ts fp₁ fp hx hp hr hf _ ih =>
    have ha₁ : Agree F G fp₁ := fun y hy => ha y (by simp [hy])
    exact .done ((ha x (by simp)).trans hx) hp hr (hf.agree ha₁) (ih fun y hy => ha y (by simp [hy]))
  | @delayed x f run hs ts fp₁ fp hx hp hf hr _ ih =>
    have ha₁ : Agree F G fp₁ := fun y hy => ha y (by simp [hy])
    refine .delayed ((ha x (by simp)).trans hx) hp (hf.agree ha₁) ?_
      (ih fun y hy => ha y (by simp [hy]))
    intro m f' c hx' ha'
    refine hr m f' c ((ha x (by simp)).symm.trans hx') fun y hy => ?_
    rw [ha' y hy, ha₁ y hy]

theorem append (h : Entries F hs ts fp) (h' : Entries F hs' ts' fp') :
    Entries F (hs ++ hs') (ts ++ ts') (fp + fp') := by
  induction h with
  | nil => simpa using h'
  | null _ ih => exact .null ih
  | done hx hp hr hf _ ih => exact add_assoc _ _ fp' ▸ .done hx hp hr hf ih
  | delayed hx hp hf hr _ ih => exact add_assoc _ _ fp' ▸ .delayed hx hp hf hr ih

/-- A variable, and the others when it is moved from. -/
theorem take (h : Entries F hs ts fp) (t : Nat) :
    ∃ fp₁ fp₂, Entries F [hs.getD t none] [ts.getD t .null] fp₁ ∧
      Entries F (hs.set t none) (ts.set t .null) fp₂ ∧ fp = fp₁ + fp₂ := by
  induction h generalizing t with
  | nil => exact ⟨0, 0, by simpa using .null .nil, .nil, rfl⟩
  | @null hs ts fp h ih =>
    cases t with
    | zero => exact ⟨0, fp, .null .nil, .null h, (zero_add fp).symm⟩
    | succ t =>
      obtain ⟨fp₁, fp₂, h1, h2, rfl⟩ := ih t
      exact ⟨fp₁, fp₂, h1, .null h2, rfl⟩
  | @done x f r hs ts fp₀ fp hx hp hr hf h ih =>
    cases t with
    | zero => exact ⟨x ::ₘ fp₀ + 0, fp, .done hx hp hr hf .nil, .null h, by rw [add_zero]⟩
    | succ t =>
      obtain ⟨fp₁, fp₂, h1, h2, rfl⟩ := ih t
      exact ⟨fp₁, _, h1, .done hx hp hr hf h2, add_left_comm _ _ _⟩
  | @delayed x f run hs ts fp₀ fp hx hp hf hr h ih =>
    cases t with
    | zero => exact ⟨x ::ₘ fp₀ + 0, fp, .delayed hx hp hf hr .nil, .null h, by rw [add_zero]⟩
    | succ t =>
      obtain ⟨fp₁, fp₂, h1, h2, rfl⟩ := ih t
      exact ⟨fp₁, _, h1, .delayed hx hp hf hr h2, add_left_comm _ _ _⟩

/-- A variable that was moved from is assigned to. -/
theorem set {t : Nat} {o : Option Nat} {th : Thunk S V E}
    (h : Entries F (hs.set t none) (ts.set t .null) fp) (ht : t < hs.length)
    (hl : ts.length = hs.length) (h' : Entries F [o] [th] fp') :
    Entries F (hs.set t o) (ts.set t th) (fp' + fp) := by
  induction hs generalizing t ts fp with
  | nil => simp at ht
  | cons o' hs ih =>
    cases ts with
    | nil => simp at hl
    | cons th' ts =>
      cases t with
      | zero =>
        cases h with
        | null h => exact h'.append h
      | succ t =>
        have ht' : t < hs.length := Nat.lt_of_succ_lt_succ ht
        have hl' : ts.length = hs.length := Nat.succ.inj hl
        cases h with
        | null h => exact .null (ih h ht' hl')
        | done hx hp hr hf h =>
          exact add_left_comm _ fp' _ ▸ .done hx hp hr hf (ih h ht' hl')
        | delayed hx hp hf hr h =>
          exact add_left_comm _ fp' _ ▸ .delayed hx hp hf hr (ih h ht' hl')

/-- Variables are moved from, one after the other. -/
theorem moveOut (h : Entries F hs ts fp) (args : List Nat) :
    ∃ fp₁ fp₂, Entries F (TaskPromise.moveOut none args hs).1 (TaskPromise.moveOut .null args ts).1 fp₁ ∧
      Entries F (TaskPromise.moveOut none args hs).2 (TaskPromise.moveOut .null args ts).2 fp₂ ∧
      fp = fp₁ + fp₂ := by
  induction args generalizing hs ts fp with
  | nil => exact ⟨0, fp, .nil, h, (zero_add fp).symm⟩
  | cons t args ih =>
    obtain ⟨fp₁, fp₂, h1, h2, rfl⟩ := h.take t
    obtain ⟨fp₃, fp₄, h3, h4, rfl⟩ := ih h2
    exact ⟨fp₁ + fp₃, fp₄, h1.append h3, h4, (add_assoc _ _ _).symm⟩

end Entries

/-! ## Bodies -/

theorem Outcome.after {m₁ : Machine S V E} {h : Nat} {c : Handle} {fp fp₁ : Multiset Nat}
    {out : Result V E × S} (hr : Ran m m₁ h fp fp₁) (hl : Live m (h ::ₘ fp))
    (ho : Outcome m₁ h c fp₁ out) : Outcome m h c fp out := by
  obtain ⟨m', fp', hr', hd, hs⟩ := ho
  exact ⟨m', fp', hr.trans hr' hl, hd, hs⟩

/-- A coroutine whose body is `b` does what `b` means. -/
def Runs (b : Body S V E) : Prop :=
  ∀ (m : Machine S V E) (h : Nat) (f : Frame S V E) (c : Handle) (ts : List (Thunk S V E))
    (fp : Multiset Nat), m.control = .resume (.task h) → m.frames h = some f →
    f.point = .running b → f.mContinuation = some c → Entries m.frames f.tasks ts fp →
    Live m (h ::ₘ fp) → Outcome m h c fp (eval b ts m.state)

section Steps

variable {h : Nat} {f f' : Frame S V E} {c : Handle} {ts : List (Thunk S V E)} {fp : Multiset Nat}

/-- An operation that leaves the frame `f'` with the body `k`. -/
theorem Runs.goesOn {k : Body S V E} (ih : Runs k) (m₀ : Machine S V E) (f' : Frame S V E)
    (hs : m.step = some (m₀.put h f')) (hf : m₀.frames = m.frames) (hn : m₀.next = m.next)
    (hd : m₀.destroyed = m.destroyed) (hp : m₀.pool = m.pool)
    (hc : m₀.control = .resume (.task h)) (hpoint : f'.point = .running k)
    (hcont : f'.mContinuation = some c) (he : Entries m.frames f'.tasks ts fp)
    (hl : Live m (h ::ₘ fp)) : Outcome m h c fp (eval k ts m₀.state) := by
  have hr : Ran m (m₀.put h f') h fp fp :=
    .single hs (fun y hne _ => (put_of_ne _ hne).trans (congrFun hf y)) hn hd (hp.trans hl.pool)
  refine .after hr hl (ih _ h f' c ts fp hc (put_self _ _ _) hpoint hcont (he.agree fun y hy => ?_)
    (hr.live hl))
  have hne : y ≠ h := fun heq => hl.not_mem (heq ▸ hy)
  exact (put_of_ne _ hne).trans (congrFun hf y)

theorem set_getD {α : Type} (l : List α) (t : Nat) (d : α) : l.set t (l.getD t d) = l := by
  induction l generalizing t with
  | nil => rfl
  | cons a l ih =>
    cases t with
    | zero => rfl
    | succ t => exact congrArg _ (ih t)

theorem lt_of_getD {hs : List (Option Nat)} {t x : Nat} (h : hs.getD t none = some x) :
    t < hs.length := by
  by_contra hn
  rw [List.getD, List.getElem?_eq_none (Nat.not_lt.mp hn)] at h
  cases h

/-- The coroutine `h` suspends at `p` and resumes the coroutine `x` of its variable `t`; it is resumed
when `x` is done. -/
theorem awaits {g : Frame S V E} {p : Point S V E} {x t : Nat} {run : S → Result V E × S}
    {fp₁ fp₂ : Multiset Nat} (hs : m.step = some (m.awaitSuspend h x f g p))
    (hx : f.tasks.getD t none = some x) (hg : m.frames x = some g)
    (hready : Ready m.frames x fp₁ run) (hlen : ts.length = f.tasks.length)
    (he : Entries m.frames (f.tasks.set t none) (ts.set t .null) fp₂)
    (hl : Live m (h ::ₘ (x ::ₘ fp₁ + fp₂))) :
    ∃ m₂ fp', Ran m m₂ h (x ::ₘ fp₁ + fp₂) fp' ∧ m₂.control = .resume (.task h) ∧
      m₂.frames h = some { f with point := p } ∧ m₂.get x = some (run m.state).1 ∧
      m₂.state = (run m.state).2 ∧
      Entries m₂.frames f.tasks (ts.set t (.done (run m.state).1)) fp' := by
  have hnot := hl.not_mem
  have hne : h ≠ x := fun heq => hnot (by simp [heq])
  have hnot₁ : h ∉ fp₁ := fun hm => hnot (by simp [hm])
  obtain ⟨-, hnd, -⟩ := Multiset.nodup_add.mp hl.nodup
  obtain ⟨hnd₁, -, hdis⟩ := Multiset.nodup_add.mp (Multiset.nodup_cons.mp hnd).2
  have hx₁ : x ∉ fp₁ := (Multiset.nodup_cons.mp hnd₁).1
  let m₁ := m.awaitSuspend h x f g p
  have hkept : ∀ y, y ≠ h → y ≠ x → m₁.frames y = m.frames y := fun y h1 h2 =>
    (put_of_ne _ h2).trans (put_of_ne _ h1)
  have hr₁ : Ran m m₁ h (x ::ₘ fp₁ + fp₂) (x ::ₘ fp₁ + fp₂) :=
    .single hs (fun y h1 h2 => hkept y h1 fun heq => h2 (by simp [heq])) rfl rfl hl.pool
  have hl₁ : Live m₁ (x ::ₘ fp₁) := (hr₁.live hl).mono
    ((Multiset.le_add_right _ _).trans (Multiset.le_cons_self _ _))
  obtain ⟨m₂, fp', hr₂, hd, hstate⟩ := hready m₁ g (.task h) hg
    (fun y hy => hkept y (fun heq => hnot₁ (heq ▸ hy)) fun heq => hx₁ (heq ▸ hy))
    (put_self _ _ _) rfl hl₁
  obtain ⟨f', hf', hpoint, hres, hfor⟩ := hd.frame
  have hlt : h < m₁.next := (hr₁.live hl).mem_lt (Multiset.mem_cons_self _ _)
  have hframe : m₂.frames h = some { f with point := p } := by
    rw [hr₂.kept h hlt hne hnot₁]
    exact (put_of_ne _ hne).trans (put_self _ _ _)
  have hrest : Entries m₂.frames (f.tasks.set t none) (ts.set t .null) fp₂ := by
    refine he.agree fun y hy => ?_
    have hyx : y ∉ x ::ₘ fp₁ := fun hm => Multiset.disjoint_left.mp hdis hm hy
    have hyh : y ≠ h := fun heq => hnot (by simp [← heq, hy])
    have hne' : y ≠ x := fun heq => hyx (by simp [heq])
    have hylt : y < m₁.next := (hr₁.live hl).mem_lt (by simp [hy])
    rw [hr₂.kept y hylt hne' fun hm => hyx (by simp [hm]), hkept y hyh hne']
  have hself : f.tasks.set t (some x) = f.tasks := hx ▸ set_getD f.tasks t none
  refine ⟨m₂, x ::ₘ fp' + fp₂, hr₁.trans (hr₂.owner fp₂) hl, hd.control, hframe, ?_, hstate, ?_⟩
  · simp only [Machine.get, hf', Option.bind_some, hres]
    rfl
  · have hset := hrest.set (lt_of_getD hx) hlen (.done hf' hpoint hres hfor .nil)
    rw [hself, add_zero] at hset
    exact hset

/-- `co_await` of a variable, up to what `await_resume` reads. -/
theorem Runs.coAwait {t : Nat} {k : Result V E → Body S V E} (ih : ∀ r, Runs (k r)) :
    Runs (.coAwait t k) := by
  intro m h f c ts fp hc hf hpoint hcont he hl
  have hexec : m.step = m.exec h f (.coAwait t k) := by
    rw [step_resume hc hf, Machine.resume, hpoint]
  obtain ⟨fp₁, fp₂, h1, h2, rfl⟩ := he.take t
  simp only [eval]
  generalize ho : f.tasks.getD t none = o at h1
  generalize hth : ts.getD t .null = th at h1
  simp only [Machine.exec, ho] at hexec
  cases h1 with
  | null h1 =>
    have hself : ts.set t .null = ts := hth ▸ set_getD ts t .null
    simp only [Thunk.force, hself]
    exact (ih emptyCoroutine).goesOn _ _ hexec rfl rfl rfl rfl hc rfl hcont he hl
  | @done x g r _ _ _ _ hx hp hr hf₁ _ =>
    have hself : ts.set t (.done r) = ts := hth ▸ set_getD ts t .null
    have hdone : g.isDone = true := by simp [Frame.isDone, hp]
    have hget : m.get x = some r := by simp [Machine.get, hx, hr]
    simp only [hx, Option.bind_some, hdone, if_true, hget, Option.map_some] at hexec
    simp only [Thunk.force, hself]
    exact (ih r).goesOn _ _ hexec rfl rfl rfl rfl hc rfl hcont he hl
  | @delayed x g run _ _ fp₁ _ hx hp hf₁ hready hnil =>
    cases hnil
    simp only [hx, Option.bind_some, hp, Bool.false_eq_true, if_false] at hexec
    rw [add_zero] at hl ⊢
    obtain ⟨m₂, fp', hr, hc₂, hframe, hget, hstate, he₂⟩ :=
      awaits hexec ho hx hready he.length h2 hl
    simp only [Thunk.force]
    rw [← hstate]
    refine .after hr hl ((ih (run m.state).1).goesOn m₂
      { f with point := .running (k (run m.state).1) } ?_ rfl rfl rfl rfl hc₂ rfl hcont he₂
      (hr.live hl))
    rw [step_resume hc₂ hframe]
    simp only [Machine.resume, hget, Option.map_some]

theorem Runs.whenReady {t : Nat} {k : Body S V E} (ih : Runs k) : Runs (.whenReady t k) := by
  intro m h f c ts fp hc hf hpoint hcont he hl
  have hexec : m.step = m.exec h f (.whenReady t k) := by
    rw [step_resume hc hf, Machine.resume, hpoint]
  obtain ⟨fp₁, fp₂, h1, h2, rfl⟩ := he.take t
  simp only [eval]
  generalize ho : f.tasks.getD t none = o at h1
  generalize hth : ts.getD t .null = th at h1
  simp only [Machine.exec, ho] at hexec
  cases h1 with
  | null h1 =>
    have hself : ts.set t .null = ts := hth ▸ set_getD ts t .null
    simp only [Thunk.force, hself]
    exact ih.goesOn _ _ hexec rfl rfl rfl rfl hc rfl hcont he hl
  | @done x g r _ _ _ _ hx hp hr hf₁ _ =>
    have hself : ts.set t (.done r) = ts := hth ▸ set_getD ts t .null
    have hdone : g.isDone = true := by simp [Frame.isDone, hp]
    simp only [hx, Option.bind_some, hdone, if_true] at hexec
    simp only [Thunk.force, hself]
    exact ih.goesOn _ _ hexec rfl rfl rfl rfl hc rfl hcont he hl
  | @delayed x g run _ _ fp₁ _ hx hp hf₁ hready hnil =>
    cases hnil
    simp only [hx, Option.bind_some, hp, Bool.false_eq_true, if_false] at hexec
    rw [add_zero] at hl ⊢
    obtain ⟨m₂, fp', hr, hc₂, hframe, -, hstate, he₂⟩ :=
      awaits hexec ho hx hready he.length h2 hl
    simp only [Thunk.force]
    rw [← hstate]
    exact .after hr hl (ih.goesOn m₂ { f with point := .running k }
      (step_resume hc₂ hframe) rfl rfl rfl rfl hc₂ rfl hcont he₂ (hr.live hl))

/-- The first resumption of a coroutine whose parameters mean `ts`. -/
theorem Runs.ready {child : Body S V E} (ih : Runs child) {x : Nat}
    (hf : F x = some f) (hpoint : f.point = .initial child) (he : Entries F f.tasks ts fp) :
    Ready F x fp (eval child ts) := by
  intro m f' c hx ha hf' hc hl
  obtain rfl : f = f' := Option.some.inj (hf.symm.trans hx)
  refine ih.goesOn m { f with point := .running child, mContinuation := some c } ?_ rfl
    rfl rfl rfl hc rfl rfl (he.agree ha) hl
  rw [step_resume hc hf']
  simp only [Machine.resume, hpoint]

/-- The call of a coroutine function. -/
theorem Runs.call {args : List Nat} {child k : Body S V E} (ihchild : Runs child) (ih : Runs k) :
    Runs (.call args child k) := by
  intro m h f c ts fp hc hf hpoint hcont he hl
  have hexec : m.step = m.exec h f (.call args child k) := by
    rw [step_resume hc hf, Machine.resume, hpoint]
  obtain ⟨fp₁, fp₂, h1, h2, rfl⟩ := he.moveOut args
  simp only [eval, Machine.exec] at hexec ⊢
  generalize moveOut none args f.tasks = p at h1 h2 hexec
  generalize moveOut .null args ts = q at h1 h2 ⊢
  let f₁ : Frame S V E := { f with point := .running k, tasks := p.2 ++ [some m.next] }
  let g : Frame S V E := { point := .initial child, params := p.1.length, tasks := p.1 }
  let m₁ : Machine S V E := ({ m with next := m.next + 1 }.put h f₁).put m.next g
  have hlt : ∀ {y}, y ∈ h ::ₘ (fp₁ + fp₂) → y ≠ m.next := fun hy => Nat.ne_of_lt (hl.mem_lt hy)
  have hkept : ∀ y, y ≠ h → y ≠ m.next → m₁.frames y = m.frames y := fun y h1 h2 =>
    (put_of_ne _ h2).trans (put_of_ne _ h1)
  have hagree : Agree m.frames m₁.frames (fp₁ + fp₂) := fun y hy =>
    hkept y (fun heq => hl.not_mem (heq ▸ hy)) (hlt (Multiset.mem_cons_of_mem hy))
  have hr : Ran m m₁ h (fp₁ + fp₂) (fp₂ + (m.next ::ₘ fp₁ + 0)) :=
    { steps := .single hexec
      next := Nat.le_succ _
      kept := fun y hy hne _ => hkept y hne (Nat.ne_of_lt hy)
      owned := by
        show (↑m.destroyed + (fp₂ + (m.next ::ₘ fp₁ + 0)) : Multiset Nat) =
          ↑m.destroyed + (fp₁ + fp₂) + Multiset.Ico m.next (m.next + 1)
        rw [ico_succ, ← Multiset.singleton_add]
        abel
      destroyed := List.prefix_rfl
      pool := hl.pool }
  have h1' := h1.agree (hagree.mono (Multiset.le_add_right _ _))
  have h2' := h2.agree (hagree.mono (Multiset.le_add_left _ _))
  have hnew : m₁.frames m.next = some g := put_self _ _ _
  have hframe : m₁.frames h = some f₁ :=
    (put_of_ne _ (hlt (Multiset.mem_cons_self _ _))).trans (put_self _ _ _)
  exact .after hr hl (ih m₁ h f₁ c _ _ hc hframe rfl hcont
    (h2'.append (.delayed hnew rfl h1'.forest (ihchild.ready hnew rfl h1') .nil)) (hr.live hl))

theorem Runs.isReady {t : Nat} {k : Bool → Body S V E} (ih : ∀ b, Runs (k b)) :
    Runs (.isReady t k) := by
  intro m h f c ts fp hc hf hpoint hcont he hl
  have hexec : m.step = m.exec h f (.isReady t k) := by
    rw [step_resume hc hf, Machine.resume, hpoint]
  obtain ⟨fp₁, fp₂, h1, -, rfl⟩ := he.take t
  simp only [eval]
  generalize ho : f.tasks.getD t none = o at h1
  generalize ts.getD t .null = th at h1
  simp only [Machine.exec, ho] at hexec
  cases h1 with
  | null => exact (ih true).goesOn _ _ hexec rfl rfl rfl rfl hc rfl hcont he hl
  | @done x g r _ _ _ _ hx hp hr _ _ =>
    have hdone : g.isDone = true := by simp [Frame.isDone, hp]
    simp only [hx, Option.map_some, hdone] at hexec
    exact (ih true).goesOn _ _ hexec rfl rfl rfl rfl hc rfl hcont he hl
  | @delayed x g run _ _ _ _ hx hp _ _ _ =>
    simp only [hx, Option.map_some, hp] at hexec
    exact (ih false).goesOn _ _ hexec rfl rfl rfl rfl hc rfl hcont he hl

theorem Runs.move {t : Nat} {k : Body S V E} (ih : Runs k) : Runs (.move t k) := by
  intro m h f c ts fp hc hf hpoint hcont he hl
  obtain ⟨fp₁, fp₂, h1, h2, rfl⟩ := he.take t
  refine ih.goesOn m { f with
    point := .running k
    tasks := f.tasks.set t none ++ [f.tasks.getD t none] } ?_ rfl rfl rfl rfl hc rfl hcont
    (add_comm fp₂ fp₁ ▸ h2.append h1) hl
  rw [step_resume hc hf, Machine.resume, hpoint]
  rfl

/-- The assignment destroys the coroutine that the variable held. -/
theorem Runs.assign {t other : Nat} {k : Body S V E} (ih : Runs k) : Runs (.assign t other k) := by
  intro m h f c ts fp hc hf hpoint hcont he hl
  have hexec : m.step = m.exec h f (.assign t other k) := by
    rw [step_resume hc hf, Machine.resume, hpoint]
  simp only [eval, Machine.exec, he.length] at hexec ⊢
  split
  · rename_i hsame
    rw [if_pos hsame] at hexec
    exact ih.goesOn _ _ hexec rfl rfl rfl rfl hc rfl hcont he hl
  · rename_i hother
    rw [if_neg hother] at hexec
    obtain ⟨hne, hlt⟩ := not_or.mp hother
    obtain ⟨fp₁, fp₂, h1, h2, rfl⟩ := he.take other
    obtain ⟨fp₃, fp₄, h3, h4, rfl⟩ := h2.take t
    have hlt' : t < (f.tasks.set other none).length := by simpa using hlt
    have hlen : (ts.set other .null).length = (f.tasks.set other none).length := by
      simp [he.length]
    have hold : (f.tasks.set other none).getD t none = f.tasks.getD t none := by
      simp [List.getD, List.getElem?_set_ne (Ne.symm hne)]
    have hfp : fp₁ + (fp₃ + fp₄) = fp₁ + fp₄ + fp₃ := by abel
    rw [hfp] at hl ⊢
    obtain ⟨m₂, hr, hc₂, hframe, hstate, hagree⟩ := destructs hexec (hold ▸ h3.forest) hl
    rw [← hstate]
    exact .after hr hl (ih m₂ h _ c _ _ hc₂ hframe rfl hcont ((h4.set hlt' hlen h1).agree hagree)
      (hr.live hl))

/-- A worker resumes the coroutine. -/
theorem Runs.schedule {k : Body S V E} (ih : Runs k) : Runs (.schedule k) := by
  intro m h f c ts fp hc hf hpoint hcont he hl
  let f₁ : Frame S V E := { f with point := .running k }
  let m₁ : Machine S V E := { m with control := .returned, pool := m.pool ++ [h] }.put h f₁
  let m₂ : Machine S V E := { m₁ with control := .resume (.task h), pool := [] }
  have hs₁ : m.step = some m₁ := by
    rw [step_resume hc hf, Machine.resume, hpoint]
    rfl
  have hpool : m₁.pool = [h] := by
    show m.pool ++ [h] = [h]
    rw [hl.pool]
    rfl
  have hs₂ : m₁.step = some m₂ := by
    simp only [Machine.step, hpool]
    rfl
  have hr : Ran m m₂ h fp fp :=
    { steps := .trans (.single hs₁) (.single hs₂)
      next := Nat.le_refl _
      kept := fun y _ hne _ => put_of_ne _ hne
      owned := by simp [m₂, m₁, Machine.put]
      destroyed := List.prefix_rfl
      pool := rfl }
  exact .after hr hl (ih m₂ h f₁ c ts fp rfl (put_self _ _ _) rfl hcont
    (he.agree (agree_put hl.not_mem)) (hr.live hl))

/-- **The machine runs every body as it means.** -/
theorem runs (b : Body S V E) : Runs b := by
  induction b with
  | coReturn v =>
    intro m h f c ts fp hc hf hpoint hcont he hl
    refine closes (r := .ok v) ?_ hcont he.forest hl
    rw [step_resume hc hf, Machine.resume, hpoint]
    rfl
  | throw e =>
    intro m h f c ts fp hc hf hpoint hcont he hl
    refine closes (r := .error e) ?_ hcont he.forest hl
    rw [step_resume hc hf, Machine.resume, hpoint]
    rfl
  | act act k ih =>
    intro m h f c ts fp hc hf hpoint hcont he hl
    refine (ih m.state).goesOn { m with state := act m.state }
      { f with point := .running (k m.state) } ?_ rfl rfl rfl rfl hc rfl hcont he hl
    rw [step_resume hc hf, Machine.resume, hpoint]
    rfl
  | call args child k ihchild ih => exact ihchild.call ih
  | coAwait t k ih => exact Runs.coAwait ih
  | whenReady t k ih => exact ih.whenReady
  | isReady t k ih => exact Runs.isReady ih
  | move t k ih => exact ih.move
  | assign t other k ih => exact ih.assign
  | schedule k ih => exact ih.schedule

end Steps

/-! ## `SyncWait` -/

/-- `SyncWait` and its caller make steps. -/
def St.Steps : St S V E → St S V E → Prop :=
  Relation.ReflTransGen fun s s' => s.step = some s'

/-- The machine makes a step by itself. -/
theorem St.step_machine {s : St S V E} (h : s.machine.step = some m) :
    s.step = some { s with machine := m } := by
  unfold St.step
  split
  · rename_i hc
    simp only [Machine.step, hc] at h
    cases h
  · rename_i hc
    rw [if_neg fun hp => ?_, h, Option.map_some]
    simp only [Machine.step, hc, hp.1] at h
    cases h
  · rw [h, Option.map_some]

theorem St.steps_machine (h : TaskPromise.Steps m m') (s : St S V E) (hs : s.machine = m) :
    s.Steps { s with machine := m' } := by
  induction h with
  | refl => exact hs ▸ .refl
  | @tail m₁ m₂ _ hstep ih => exact ih.tail (St.step_machine (s := { s with machine := m₁ }) hstep)

/-- The steps of a run that has an end lead to it. -/
theorem St.Steps.ends {s s' final : St S V E} (h : s.Steps final) (hend : final.step = none)
    (h' : s.Steps s') : s'.Steps final := by
  have hu : Relator.RightUnique fun s s' : St S V E => s.step = some s' := fun a b c h1 h2 =>
    Option.some.inj (h1.symm.trans h2)
  rcases Relation.ReflTransGen.total_of_right_unique hu h h' with hr | hr
  · rcases Relation.ReflTransGen.cases_head hr with rfl | ⟨x, hx, -⟩
    · exact .refl
    · rw [hend] at hx
      cases hx
  · exact hr

/-- What `SyncWait` and the end of its `Task` come to. -/
structure Waited (task : Option (Body S V E)) (s : S) (final : St S V E) : Prop where
  /-- `event.Wait()` returns, and `task.get()` gives the outcome of the body. -/
  set : final.mIsSet = true
  data : final.data = some (evalTask task s).1
  state : final.machine.state = (evalTask task s).2
  /-- No coroutine is left. -/
  pool : final.machine.pool = []
  destroyed : final.machine.destroyed.Perm (List.range final.machine.next)
  ended : final.step = none

/-- **`SyncWait` gives the outcome of the body.** Every run of a new coroutine, or of an empty `Task`,
ends; it never resumes a coroutine that is done or destroyed, and destroys each frame once. -/
theorem syncWait_runs (task : Option (Body S V E)) (s : S) :
    ∃ final, (start task s).Steps final ∧ Waited task s final ∧
      ∀ s', (start task s).Steps s' → s'.Steps final := by
  cases task with
  | none =>
    have hs : (start (none : Option (Body S V E)) s).Steps ((start none s).notify emptyCoroutine) :=
      .single rfl
    exact ⟨_, hs, ⟨rfl, rfl, rfl, rfl, .refl _, rfl⟩, fun s' h' => hs.ends rfl h'⟩
  | some b =>
    let s₀ := start (some b) s
    let f : Frame S V E := ⟨.initial b, 0, [], none, none⟩
    let m₁ : Machine S V E := { s₀.machine with control := .resume (.task 0) }.put 0
      { f with mContinuation := some .waitable }
    let s₁ : St S V E := { s₀ with waitable := .awaiting 0, machine := m₁ }
    have hlive : Live m₁ (0 ::ₘ 0) := ⟨by simp [m₁, s₀, start, Machine.put],
      by simp [m₁, s₀, start, Machine.put], rfl⟩
    obtain ⟨m₂, fp, hr, hd, hstate⟩ := (runs b).ready (F := s₀.machine.frames) (f := f) rfl rfl .nil m₁ f
      .waitable rfl (fun _ _ => by simp at *) (put_self _ _ _) rfl hlive
    obtain ⟨g, hg, -, hres, hfor⟩ := hd.frame
    let s₂ : St S V E := { s₁ with machine := m₂ }
    have hs₂ : s₂.step = some (s₂.notify (eval b [] s).1) := by
      simp only [St.step, s₂, hd.control, St.resumeWaitable, s₁, Machine.get, hg, Option.bind_some, hres]
      rfl
    let m₃ : Machine S V E := { m₂ with control := .destroy [0] none }
    let s₃ : St S V E := { s₂.notify (eval b [] s).1 with machine := m₃, task := none }
    have hs₃ : (s₂.notify (eval b [] s).1).step = some s₃ := by
      exact if_pos ⟨hr.pool, rfl⟩
    have hnd : (0 ::ₘ fp + 0 : Multiset Nat).Nodup := by
      rw [add_zero]
      exact (Multiset.nodup_add.mp (hr.live hlive).nodup).2.1
    obtain ⟨m₄, hfr, hc₄⟩ := (Forest.cons hg hfor .nil).destroys (m := m₃) [] none
      rfl (fun _ _ => rfl) hnd
    let m₅ : Machine S V E := { m₄ with control := .returned }
    have hs₄ : m₄.step = some m₅ := by simp only [Machine.step, hc₄, m₅]
    have hsteps : s₀.Steps { s₃ with machine := m₅ } :=
      .trans (.single (show s₀.step = some s₁ from rfl)) (.trans (St.steps_machine hr.steps s₁ rfl) (.trans (.single hs₂)
        (.trans (.single hs₃) (St.steps_machine (hfr.steps.trans (.single hs₄)) s₃ rfl))))
    have hpool : m₅.pool = [] := hfr.pool.trans hr.pool
    have hend : St.step { s₃ with machine := m₅ } = none := if_pos ⟨hpool, rfl⟩
    refine ⟨_, hsteps, ⟨rfl, rfl, hfr.state.trans hstate, hpool, ?_, hend⟩, fun s' h' =>
      hsteps.ends hend h'⟩
    refine Multiset.coe_eq_coe.mp ?_
    have hnext : m₄.next = m₂.next := hfr.next
    have hall : (↑m₄.destroyed : Multiset Nat) = Multiset.Ico 0 1 + Multiset.Ico 1 m₂.next := by
      have howned : (↑m₂.destroyed + fp : Multiset Nat) = 0 + 0 + Multiset.Ico 1 m₂.next := hr.owned
      rw [hfr.owned, ico_succ, Multiset.singleton_add, add_zero]
      show ↑m₂.destroyed + 0 ::ₘ fp = _
      rw [Multiset.add_cons, howned, zero_add, zero_add]
    show (↑m₄.destroyed : Multiset Nat) = ↑(List.range m₄.next)
    rw [hall, Multiset.Ico_add_Ico_eq_Ico (Nat.zero_le 1) hr.next, hnext]
    exact (congrArg Finset.val (Finset.range_eq_Ico m₂.next)).symm

/-- A coroutine that takes a task by value, goes to a pool, and awaits it there. -/
def onPool : Body Nat Nat Unit :=
  .schedule (.coAwait 0 fun
    | .ok v => .coReturn v
    | .error e => .throw e)

/-- A local is moved into a coroutine, whose result is awaited; then the local is awaited. -/
def movedBody : Body Nat Nat Unit :=
  .call [] (.act (· + 1) fun n => .coReturn n) <| .call [0] onPool <| .coAwait 1 fun
    | .error e => .throw e
    | .ok v => .coAwait 0 fun
      | .ok w => .coReturn w
      | .error _ => .coReturn (v + 10)

/-- The local that was moved from is empty, and its exception is handled. -/
theorem syncWait_runs_moved : ∃ final, (start (some movedBody) 5).Steps final ∧
    final.data = some (.ok 15) ∧ final.machine.state = 6 ∧
    final.machine.destroyed.Perm (List.range final.machine.next) := by
  obtain ⟨final, hs, h, -⟩ := syncWait_runs (some movedBody) 5
  exact ⟨final, hs, h.data, h.state, h.destroyed⟩

end TaskPromise

end AsyncLib
