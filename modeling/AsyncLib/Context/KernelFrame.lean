import AsyncLib.Context.Heap

/-!
# `RAIIKernelFrame`

`async/context/kernel_frame.h`. A frame has its arguments and then its results in one vector; a
result slot is null until it is set, and `mNumResults` is -1 until `SetNumResults`. A
`RAIIKernelFrame` is a copy that holds a reference for each slot of the range
`GetAsyncValues(0, mNumArguments + mNumResults)`.

* `Frame`, `build`: the frames that `AddArg`, `SetNumResults` and `SetResultAt` make. `none` is a
  failed assertion, an invalid index or range, or an overflow of an `int`.
* `run`: a `RAIIKernelFrame` is constructed, and then copies are made and destroyed.
* `balanced_iff`: each copy holds one reference for each slot if and only if the range is the whole
  vector and every result is set.

Reference counts are natural numbers: right while a value has fewer than 2^32 references.
-/

namespace AsyncLib

namespace KernelFrame

open AsyncValue (Addr)

/-! ## The code -/

/-- `CommonAsyncKernelFrame`. -/
structure Frame where
  mAsyncValues : List (Option Addr)
  mNumArguments : Int
  mNumResults : Int
  deriving DecidableEq, Repr

/-- A frame without arguments and results. -/
def Frame.new : Frame := ⟨[], 0, -1⟩

/-- `AddArg`; `none` if an assertion fails or the count leaves `int`. -/
def addArg (f : Frame) (argument : Addr) : Option Frame :=
  if f.mNumResults = -1 ∧ f.mNumArguments + 1 < 2 ^ 31 then
    some { f with
      mAsyncValues := f.mAsyncValues ++ [some argument], mNumArguments := f.mNumArguments + 1 }
  else none

/-- `std::vector::resize`; new slots are null. -/
def resize (slots : List (Option Addr)) (n : Nat) : List (Option Addr) :=
  slots.take n ++ List.replicate (n - slots.length) none

/-- `SetNumResults`; `none` if an assertion fails or the count leaves `int`. -/
def setNumResults (f : Frame) (size : Int) : Option Frame :=
  if f.mNumArguments = f.mAsyncValues.length ∧ f.mNumResults = -1 ∧ 0 ≤ f.mNumArguments + size ∧
      f.mNumArguments + size < 2 ^ 31 then
    some { f with
      mAsyncValues := resize f.mAsyncValues (f.mNumArguments + size).toNat, mNumResults := size }
  else none

/-- `SetResultAt`; `none` if an assertion fails. -/
def setResultAt (f : Frame) (index : Int) (value : Addr) : Option Frame :=
  if index < f.mNumResults ∧ 0 ≤ f.mNumArguments + index ∧
      f.mAsyncValues[(f.mNumArguments + index).toNat]? = some none then
    some { f with
      mAsyncValues := f.mAsyncValues.set (f.mNumArguments + index).toNat (some value) }
  else none

/-- The calls that build a frame. -/
inductive Op where
  | addArg (argument : Addr)
  | setNumResults (size : Int)
  | setResultAt (index : Int) (value : Addr)
  deriving DecidableEq, Repr

/-- A call on a frame. -/
def Op.apply (f : Frame) : Op → Option Frame
  | .addArg argument => KernelFrame.addArg f argument
  | .setNumResults size => KernelFrame.setNumResults f size
  | .setResultAt index value => KernelFrame.setResultAt f index value

/-- The frame that the calls make, one after the other. -/
def build (f : Frame) (ops : List Op) : Option Frame := ops.foldlM Op.apply f

/-- `int` to `size_t`. -/
def toSize (n : Int) : Nat := (n % 2 ^ 64).toNat

/-- `GetAsyncValues`. -/
def getAsyncValues (f : Frame) (start length : Nat) : Option (List (Option Addr)) :=
  if (start + length) % 2 ^ 64 ≤ toSize (f.mNumArguments + f.mNumResults) then
    if length = 0 then some []
    else if start + length ≤ f.mAsyncValues.length then
      some ((f.mAsyncValues.drop start).take length)
    else none
  else none

/-- The reference counts. -/
abbrev Refs := Addr → Nat

/-- `AddRef` of a slot; `none` if it is null. -/
def addRef (refs : Refs) : Option Addr → Option Refs
  | some a => some (Function.update refs a (refs a + 1))
  | none => none

/-- A reference that is not there is not dropped. -/
def dropRef (refs : Refs) : Option Addr → Option Refs
  | some a => if refs a = 0 then none else some (Function.update refs a (refs a - 1))
  | none => none

/-- `AddRefAll`. -/
def addRefAll (f : Frame) (refs : Refs) : Option Refs := do
  let slots ← getAsyncValues f 0 (toSize (f.mNumArguments + f.mNumResults))
  slots.foldlM addRef refs

/-- `DropRefAll`. -/
def dropRefAll (f : Frame) (refs : Refs) : Option Refs := do
  let slots ← getAsyncValues f 0 (toSize (f.mNumArguments + f.mNumResults))
  slots.foldlM dropRef refs

/-- `~RAIIKernelFrame`. -/
def destroy (f : Frame) (refs : Refs) : Option Refs :=
  if f.mAsyncValues.isEmpty then some refs else dropRefAll f refs

/-- What happens to the copies of a frame. -/
inductive Act where
  /-- A `RAIIKernelFrame` is copied. -/
  | copy
  /-- One is destroyed. -/
  | destroy
  deriving DecidableEq, Repr

/-- The reference counts after it. -/
def Act.apply (f : Frame) (refs : Refs) : Act → Option Refs
  | .copy => addRefAll f refs
  | .destroy => KernelFrame.destroy f refs

/-- A `RAIIKernelFrame` is constructed, and then copies are made and destroyed. -/
def run (f : Frame) (refs : Refs) (acts : List Act) : Option Refs :=
  (addRefAll f refs).bind fun refs => acts.foldlM (Act.apply f) refs

/-- How many `RAIIKernelFrame`s there are after `acts`, where there were `n`; none can be copied or
destroyed when there is none. -/
def living : Nat → List Act → Option Nat
  | n, [] => some n
  | n + 1, .copy :: acts => living (n + 2) acts
  | n + 1, .destroy :: acts => living n acts
  | 0, _ :: _ => none

/-! ## The references -/

/-- Each living copy holds one reference for each slot, no null slot is read, and nothing fails. -/
def Balanced (f : Frame) : Prop :=
  ∀ (refs : Refs) (acts : List Act) (n : Nat), living 1 acts = some n →
    ∃ refs', run f refs acts = some refs' ∧
      ∀ a, refs' a = refs a + n * f.mAsyncValues.count (some a)

/-- The two counters cover all slots, and every result is set. -/
structure Complete (f : Frame) : Prop where
  covered : f.mNumArguments + f.mNumResults = f.mAsyncValues.length
  set : none ∉ f.mAsyncValues

/-- What is true of every frame: the counters cover the slots, or there is one slot more and no null
slot. -/
structure Built (f : Frame) : Prop where
  small : f.mNumArguments + f.mNumResults < 2 ^ 31
  slots : f.mNumArguments + f.mNumResults = f.mAsyncValues.length ∨
    f.mNumArguments + f.mNumResults + 1 = f.mAsyncValues.length ∧ none ∉ f.mAsyncValues

theorem built_new : Built Frame.new := ⟨by decide, .inr ⟨rfl, nofun⟩⟩

theorem length_resize (slots : List (Option Addr)) (n : Nat) : (resize slots n).length = n := by
  rw [resize, List.length_append, List.length_take, List.length_replicate]
  omega

theorem Built.apply {f g : Frame} (h : Built f) {op : Op} (hop : op.apply f = some g) : Built g := by
  cases op with
  | addArg argument =>
    obtain ⟨⟨hr, hlt⟩, hop⟩ := Option.ite_none_right_eq_some.mp hop
    cases hop
    have hlen : (f.mAsyncValues ++ [some argument]).length = f.mAsyncValues.length + 1 :=
      List.length_append
    refine ⟨?_, ?_⟩
    · show f.mNumArguments + 1 + f.mNumResults < 2 ^ 31
      omega
    · show f.mNumArguments + 1 + f.mNumResults = ((f.mAsyncValues ++ [some argument]).length : Int) ∨
        f.mNumArguments + 1 + f.mNumResults + 1 = ((f.mAsyncValues ++ [some argument]).length : Int) ∧
          none ∉ f.mAsyncValues ++ [some argument]
      rcases h.slots with hs | ⟨hs, hnull⟩
      · exact .inl (by omega)
      · refine .inr ⟨by omega, fun hm => ?_⟩
        rcases List.mem_append.mp hm with hm | hm
        · exact hnull hm
        · cases List.mem_singleton.mp hm
  | setNumResults size =>
    obtain ⟨⟨-, -, hpos, hlt⟩, hop⟩ := Option.ite_none_right_eq_some.mp hop
    cases hop
    refine ⟨hlt, .inl ?_⟩
    show f.mNumArguments + size = ((resize f.mAsyncValues _).length : Int)
    rw [length_resize]
    omega
  | setResultAt index value =>
    obtain ⟨⟨hlt, hpos, hnull⟩, hop⟩ := Option.ite_none_right_eq_some.mp hop
    cases hop
    refine ⟨h.small, .inl ?_⟩
    show f.mNumArguments + f.mNumResults = ((f.mAsyncValues.set _ _).length : Int)
    rw [List.length_set]
    rcases h.slots with hs | ⟨-, hnot⟩
    · exact hs
    · exact absurd (List.mem_of_getElem? hnull) hnot

theorem built_build {f g : Frame} {ops : List Op} (h : Built f) (hb : build f ops = some g) :
    Built g := by
  induction ops generalizing f with
  | nil =>
    cases hb
    exact h
  | cons op ops ih =>
    obtain ⟨f', hop, hb⟩ := Option.bind_eq_some_iff.mp hb
    exact ih (h.apply hop) hb

section Refs

variable {slots : List (Option Addr)} {refs refs' : Refs}

/-- A reference for each slot. -/
theorem addRef_slots (h : none ∉ slots) (refs : Refs) :
    ∃ refs', slots.foldlM addRef refs = some refs' ∧
      ∀ a, refs' a = refs a + slots.count (some a) := by
  induction slots generalizing refs with
  | nil => exact ⟨refs, rfl, fun _ => rfl⟩
  | cons slot slots ih =>
    obtain ⟨hne, hrest⟩ := not_or.mp (fun hm => h (List.mem_cons.mpr hm))
    cases slot with
    | none => exact absurd rfl hne
    | some b =>
      obtain ⟨refs', hfold, hcount⟩ := ih hrest (Function.update refs b (refs b + 1))
      refine ⟨refs', hfold, fun a => ?_⟩
      rw [hcount a, List.count_cons]
      by_cases hab : a = b
      · subst hab
        rw [Function.update_self]
        simp only [beq_self_eq_true, if_true]
        omega
      · rw [Function.update_of_ne hab]
        have hba : (some b == some a) = false := by
          rw [beq_eq_false_iff_ne]
          exact fun he => hab (Option.some.inj he).symm
        rw [hba]
        rfl

/-- The references for the slots are dropped, if they are there. -/
theorem dropRef_slots (h : none ∉ slots) {refs : Refs}
    (hrefs : ∀ a, slots.count (some a) ≤ refs a) :
    ∃ refs', slots.foldlM dropRef refs = some refs' ∧
      ∀ a, refs' a + slots.count (some a) = refs a := by
  induction slots generalizing refs with
  | nil => exact ⟨refs, rfl, fun _ => rfl⟩
  | cons slot slots ih =>
    obtain ⟨hne, hrest⟩ := not_or.mp (fun hm => h (List.mem_cons.mpr hm))
    cases slot with
    | none => exact absurd rfl hne
    | some b =>
      have hpos : refs b ≠ 0 := by
        have hb := hrefs b
        rw [List.count_cons_self] at hb
        omega
      have hother : ∀ a, a ≠ b → (some b :: slots).count (some a) = slots.count (some a) :=
        fun a hab => List.count_cons_of_ne fun he => hab (Option.some.inj he).symm
      have hless : ∀ a, slots.count (some a) ≤ Function.update refs b (refs b - 1) a := by
        intro a
        have ha := hrefs a
        by_cases hab : a = b
        · subst hab
          rw [List.count_cons_self] at ha
          rw [Function.update_self]
          omega
        · rw [hother a hab] at ha
          rwa [Function.update_of_ne hab]
      obtain ⟨refs', hfold, hcount⟩ := ih hrest hless
      refine ⟨refs', ?_, fun a => ?_⟩
      · rw [List.foldlM_cons, dropRef, if_neg hpos]
        exact hfold
      · have ha := hcount a
        by_cases hab : a = b
        · subst hab
          rw [Function.update_self] at ha
          rw [List.count_cons_self]
          omega
        · rw [Function.update_of_ne hab] at ha
          rwa [hother a hab]

/-- A null slot is not read. -/
theorem addRef_null (h : none ∈ slots) (refs : Refs) : slots.foldlM addRef refs = none := by
  induction slots generalizing refs with
  | nil => cases h
  | cons slot slots ih =>
    cases slot with
    | none => rfl
    | some b =>
      rcases List.mem_cons.mp h with he | h
      · cases he
      · exact ih h _

end Refs

/-! ## The copies -/

section Copies

variable {f : Frame}

theorem toSize_natCast {n : Nat} (h : n < 2 ^ 31) : toSize n = n := by
  rw [toSize]
  omega

/-- Counters that cover `n` slots read the first `n` slots. -/
theorem getAsyncValues_take {n : Nat} (hn : f.mNumArguments + f.mNumResults = n) (hlt : n < 2 ^ 31)
    (hle : n ≤ f.mAsyncValues.length) :
    getAsyncValues f 0 (toSize (f.mNumArguments + f.mNumResults)) = some (f.mAsyncValues.take n) := by
  have hsize : (0 + n) % 2 ^ 64 ≤ n := by omega
  rw [getAsyncValues, hn, toSize_natCast hlt, if_pos hsize]
  by_cases h0 : n = 0
  · rw [if_pos h0, h0, List.take_zero]
  · rw [if_neg h0, if_pos (by omega), List.drop_zero]

theorem Complete.getAsyncValues (hc : Complete f) (h : Built f) :
    getAsyncValues f 0 (toSize (f.mNumArguments + f.mNumResults)) = some f.mAsyncValues := by
  have hlt : f.mAsyncValues.length < 2 ^ 31 := by
    have hsmall := h.small
    have hcov := hc.covered
    omega
  rw [getAsyncValues_take hc.covered hlt le_rfl, List.take_length]

theorem Complete.addRefAll (hc : Complete f) (h : Built f) (refs : Refs) :
    ∃ refs', addRefAll f refs = some refs' ∧
      ∀ a, refs' a = refs a + f.mAsyncValues.count (some a) := by
  rw [KernelFrame.addRefAll, hc.getAsyncValues h]
  exact addRef_slots hc.set refs

theorem Complete.destroy (hc : Complete f) (h : Built f) {refs : Refs}
    (hrefs : ∀ a, f.mAsyncValues.count (some a) ≤ refs a) :
    ∃ refs', destroy f refs = some refs' ∧
      ∀ a, refs' a + f.mAsyncValues.count (some a) = refs a := by
  rw [KernelFrame.destroy]
  split
  · rename_i hempty
    refine ⟨refs, rfl, fun a => ?_⟩
    rw [List.isEmpty_iff.mp hempty, List.count_nil, Nat.add_zero]
  · rw [dropRefAll, hc.getAsyncValues h]
    exact dropRef_slots hc.set hrefs

/-- Each living copy holds its references, over `base`. -/
theorem Complete.acts (hc : Complete f) (h : Built f) {base refs : Refs} {m n : Nat}
    {acts : List Act} (hl : living m acts = some n)
    (hrefs : ∀ a, refs a = base a + m * f.mAsyncValues.count (some a)) :
    ∃ refs', acts.foldlM (Act.apply f) refs = some refs' ∧
      ∀ a, refs' a = base a + n * f.mAsyncValues.count (some a) := by
  induction acts generalizing refs m with
  | nil =>
    have hmn : m = n := by
      rw [living] at hl
      exact Option.some.inj hl
    exact ⟨refs, rfl, hmn ▸ hrefs⟩
  | cons act acts ih =>
    cases m with
    | zero =>
      rw [living] at hl
      exact nomatch hl
    | succ m =>
      cases act with
      | copy =>
        obtain ⟨refs', hadd, hcount⟩ := hc.addRefAll h refs
        have hmore : ∀ a, refs' a = base a + (m + 1 + 1) * f.mAsyncValues.count (some a) := by
          intro a
          rw [hcount a, hrefs a, Nat.succ_mul (m + 1), Nat.add_assoc]
        obtain ⟨refs'', hrun, hres⟩ := ih hl hmore
        refine ⟨refs'', ?_, hres⟩
        rw [List.foldlM_cons, Act.apply, hadd]
        exact hrun
      | destroy =>
        have hthere : ∀ a, f.mAsyncValues.count (some a) ≤ refs a := by
          intro a
          rw [hrefs a, Nat.succ_mul]
          omega
        obtain ⟨refs', hdrop, hcount⟩ := hc.destroy h hthere
        have hless : ∀ a, refs' a = base a + m * f.mAsyncValues.count (some a) := by
          intro a
          have ha := hcount a
          rw [hrefs a, Nat.succ_mul] at ha
          omega
        obtain ⟨refs'', hrun, hres⟩ := ih hl hless
        refine ⟨refs'', ?_, hres⟩
        rw [List.foldlM_cons, Act.apply, hdrop]
        exact hrun

theorem Complete.balanced (hc : Complete f) (h : Built f) : Balanced f := by
  intro refs acts n hl
  obtain ⟨refs', hadd, hcount⟩ := hc.addRefAll h refs
  have hone : ∀ a, refs' a = refs a + 1 * f.mAsyncValues.count (some a) := by
    intro a
    rw [hcount a, Nat.one_mul]
  obtain ⟨refs'', hrun, hres⟩ := hc.acts h hl hone
  refine ⟨refs'', ?_, hres⟩
  rw [run, hadd]
  exact hrun

/-- The first copy already takes a reference for each slot. -/
theorem Balanced.first (hb : Balanced f) :
    ∃ refs, addRefAll f (fun _ => 0) = some refs ∧ ∀ a, refs a = f.mAsyncValues.count (some a) := by
  obtain ⟨refs, hrun, hcount⟩ := hb (fun _ => 0) [] 1 rfl
  obtain ⟨refs', hadd, he⟩ := Option.bind_eq_some_iff.mp hrun
  cases he
  refine ⟨refs, hadd, fun a => ?_⟩
  rw [hcount a, Nat.zero_add, Nat.one_mul]

/-- Without `SetNumResults` the last slot gets no reference. -/
theorem not_balanced_of_short (h : Built f) (hnull : none ∉ f.mAsyncValues)
    (hshort : f.mNumArguments + f.mNumResults + 1 = f.mAsyncValues.length) : ¬ Balanced f := by
  intro hb
  obtain ⟨refs, hadd, hcount⟩ := hb.first
  obtain ⟨slots, hslots, hfold⟩ := Option.bind_eq_some_iff.mp hadd
  cases hvs : f.mAsyncValues using List.reverseRecOn with
  | nil =>
    -- The range of no slots but -1 is the largest `size_t`.
    have hneg : f.mNumArguments + f.mNumResults = -1 := by
      rw [hvs, List.length_nil] at hshort
      omega
    rw [getAsyncValues, hneg, hvs] at hslots
    cases hslots
  | append_singleton init last =>
    cases last with
    | none => exact hnull (hvs ▸ List.mem_append_right init (List.mem_singleton_self none))
    | some a =>
      have hlen : f.mAsyncValues.length = init.length + 1 := by
        rw [hvs, List.length_append]
        rfl
      have hn : f.mNumArguments + f.mNumResults = (init.length : Int) := by omega
      have hlt : init.length < 2 ^ 31 := by
        have hsmall := h.small
        omega
      rw [getAsyncValues_take hn hlt (by omega), hvs, List.take_left] at hslots
      cases hslots
      obtain ⟨refs', hfold', hcount'⟩ := addRef_slots
        (fun hm => hnull (hvs ▸ List.mem_append_left _ hm)) fun _ => 0
      have he : refs' = refs := Option.some.inj (hfold'.symm.trans hfold)
      have ha := hcount a
      rw [← he, hcount' a, hvs, List.count_append, List.count_singleton_self] at ha
      omega

theorem Balanced.complete (hb : Balanced f) (h : Built f) : Complete f := by
  rcases h.slots with hcov | ⟨hshort, hnull⟩
  · refine ⟨hcov, fun hm => ?_⟩
    obtain ⟨refs, hadd, -⟩ := hb.first
    have hlt : f.mAsyncValues.length < 2 ^ 31 := by
      have hsmall := h.small
      omega
    rw [addRefAll, getAsyncValues_take hcov hlt le_rfl, List.take_length] at hadd
    exact nomatch (addRef_null hm _).symm.trans hadd
  · exact absurd hb (not_balanced_of_short h hnull hshort)

/-- The copies of a frame hold one reference for each slot and give all of them back, and none reads
a null slot, exactly when `SetNumResults` was called and every result is set. -/
theorem balanced_iff {ops : List Op} {f : Frame} (hf : build Frame.new ops = some f) :
    Balanced f ↔ Complete f :=
  ⟨fun hb => hb.complete (built_build built_new hf), fun hc => hc.balanced (built_build built_new hf)⟩

/-- The argument 4 and the result 5. -/
theorem balanced_iff_one_result :
    ∃ f, build Frame.new [.addArg 4, .setNumResults 1, .setResultAt 0 5] = some f ∧ Balanced f := by
  refine ⟨⟨[some 4, some 5], 1, 1⟩, by decide, ?_⟩
  have hf : build Frame.new [.addArg 4, .setNumResults 1, .setResultAt 0 5] =
      some ⟨[some 4, some 5], 1, 1⟩ := by decide
  exact (balanced_iff hf).mpr ⟨rfl, by decide⟩

/-- `SetNumResults` is not called: the only argument gets no reference. -/
theorem not_balanced :
    ∃ f, build Frame.new [.addArg 4] = some f ∧ ¬ Balanced f := by
  refine ⟨⟨[some 4], 1, -1⟩, by decide, fun hb => ?_⟩
  obtain ⟨refs, hrun, hcount⟩ := hb (fun _ => 0) [] 1 rfl
  have he : refs = fun _ => 0 := (Option.some.inj hrun).symm
  have h4 := hcount 4
  rw [he] at h4
  exact absurd h4 (by decide)

end Copies

end KernelFrame

end AsyncLib
