import AsyncLib.Support.UniqueFunction

/-!
# Programs with `unique_function`

A function holds a callable in itself or in a block of its own (`Holds`), and the ledgers of the memory
balance with what the functions hold (`Accounts`). Each operation of a function keeps this
(`construct_holds`, `Holds.destruct`, `Holds.moveConstruct`, `Holds.setCallee`), and so does each
operation of a program (`Inv`, `step_refines`).

* `functions_refine`: every program gives the answers of its meaning, and is undefined where its meaning
  is: where it uses a function that was destroyed, or calls one that is empty. Each block that was
  allocated is freed once or belongs to one function. Each callable that has a destructor is destroyed
  once, belongs to one function, or was left behind by a move out of the storage of a function.
-/

namespace AsyncLib

namespace UniqueFunction

/-! ## What a function holds -/

section Holds

variable {κ σ α ρ : Type} {C : Callables κ σ α ρ} {m m' : Memory κ σ}
  {f : Base κ σ}

/-- The callable of a function, and its block if it has one. -/
structure Held (κ σ : Type) where
  object : Object κ σ
  block : Option Nat

/-- Where the callable lies. -/
def Held.Stored (C : Callables κ σ α ρ) (m : Memory κ σ) (f : Base κ σ) (h : Held κ σ) : Prop :=
  match h.block with
  | none => f.storage = .inlineStorage (some h.object)
  | some p => f.storage = .outOfLineStorage p (C.size h.object.type) (C.alignment h.object.type) ∧
    m.heap p = some ⟨C.size h.object.type, C.alignment h.object.type, h.object⟩

/-- The function `f` holds the callable `h`. -/
structure Holds (C : Callables κ σ α ρ) (m : Memory κ σ) (f : Base κ σ) (h : Held κ σ) : Prop where
  callback : f.callback = some h.object.type
  inlineFlag : f.inlineFlag = C.isInline h.object.type
  block : h.block.isNone = C.isInline h.object.type
  id : h.object.id.isNone = C.isTrivial h.object.type
  stored : h.Stored C m f

/-- The memory `m'` has the blocks of `hs` as `m`. -/
def Agree (m m' : Memory κ σ) (hs : List (Held κ σ)) : Prop :=
  ∀ h ∈ hs, ∀ p, h.block = some p → m'.heap p = m.heap p

/-- Each block was freed or belongs to one callable, and each callable that has a destructor was
destroyed or abandoned, or it is held. -/
structure Accounts (m : Memory κ σ) (hs : List (Held κ σ)) : Prop where
  blocks : (m.freed ++ hs.filterMap Held.block).Perm (List.range m.allocated)
  objects : (m.destroyed ++ m.abandoned ++ hs.filterMap fun h => h.object.id).Perm
    (List.range m.constructed)

theorem Holds.agree {h : Held κ σ} {hs : List (Held κ σ)} (hh : Holds C m f h)
    (ha : Agree m m' hs) (hm : h ∈ hs) : Holds C m' f h := by
  refine { hh with stored := ?_ }
  have hst := hh.stored
  unfold Held.Stored at hst ⊢
  cases hb : h.block with
  | none => simpa [hb] using hst
  | some p =>
    simp only [hb] at hst ⊢
    exact ⟨hst.1, (ha h hm p hb).trans hst.2⟩

theorem Agree.of_heap (hs : List (Held κ σ)) (h : m'.heap = m.heap) : Agree m m' hs :=
  fun _ _ p _ => congrFun h p

theorem Accounts.perm {hs hs' : List (Held κ σ)} (h : Accounts m hs) (hp : hs.Perm hs') :
    Accounts m hs' where
  blocks := ((hp.filterMap _).append_left _).symm.trans h.blocks
  objects := ((hp.filterMap _).append_left _).symm.trans h.objects

/-- A block that is held was allocated. -/
theorem Accounts.block_lt {hs : List (Held κ σ)} (h : Accounts m hs) {x : Held κ σ} {p : Nat}
    (hx : x ∈ hs) (hp : x.block = some p) : p < m.allocated := by
  refine List.mem_range.mp (h.blocks.subset (List.mem_append.mpr (.inr ?_)))
  exact List.mem_filterMap.mpr ⟨x, hx, hp⟩

/-- Two callables have different blocks. -/
theorem Accounts.block_ne {x : Held κ σ} {hs : List (Held κ σ)} (h : Accounts m (x :: hs))
    {y : Held κ σ} {p : Nat} (hx : x.block = some p) (hy : y ∈ hs) : y.block ≠ some p := by
  intro hyp
  have hn := (List.nodup_append.mp (h.blocks.nodup_iff.mpr List.nodup_range)).2.1
  rw [List.filterMap_cons_some hx] at hn
  exact (List.nodup_cons.mp hn).1 (List.mem_filterMap.mpr ⟨y, hy, hyp⟩)

end Holds

/-! ## The operations of a function -/

section Operations

variable {κ σ α ρ : Type} {C : Callables κ σ α ρ} {m : Memory κ σ} {f : Base κ σ}
  {x : Held κ σ} {hs : List (Held κ σ)}

/-- A new callable is held, and has a number if it has a destructor. -/
theorem newObject_spec (C : Callables κ σ α ρ) (m : Memory κ σ) (k : κ) (s : σ) :
    ∃ n id, newObject C m k s = ({ m with constructed := n }, ⟨k, s, id⟩) ∧
      id.isNone = C.isTrivial k ∧ ∀ hs, Accounts m hs →
        Accounts { m with constructed := n } (⟨⟨k, s, id⟩, none⟩ :: hs) := by
  unfold newObject
  cases ht : C.isTrivial k with
  | true =>
    exact ⟨m.constructed, none, rfl, rfl, fun hs h => ⟨by simpa using h.blocks, by simpa using h.objects⟩⟩
  | false =>
    refine ⟨m.constructed + 1, some m.constructed, rfl, rfl, fun hs h => ⟨by simpa using h.blocks, ?_⟩⟩
    have hp := h.objects.cons m.constructed
    simp only [List.filterMap_cons]
    refine List.perm_middle.trans (hp.trans ?_)
    rw [List.range_succ]
    exact (List.perm_append_singleton _ _).symm

/-- The constructor from a callable. -/
theorem construct_holds (C : Callables κ σ α ρ) (h : Accounts m hs) (k : κ) (s : σ) :
    ∃ m' f y, construct C m k s = (m', f) ∧ Holds C m' f y ∧ y.object.type = k ∧
      y.object.state = s ∧ Accounts m' (y :: hs) ∧ Agree m m' hs ∧ m'.abandoned = m.abandoned := by
  obtain ⟨n, id, hnew, hid, hacc⟩ := newObject_spec C m k s
  have hacc := hacc hs h
  unfold construct
  simp only [hnew]
  cases hin : C.isInline k with
  | true =>
    exact ⟨_, _, ⟨⟨k, s, id⟩, none⟩, rfl, ⟨rfl, hin.symm, hin.symm, hid, rfl⟩, rfl, rfl, hacc,
      .of_heap hs rfl, rfl⟩
  | false =>
    refine ⟨_, _, ⟨⟨k, s, id⟩, some m.allocated⟩, rfl, ⟨rfl, hin.symm, hin.symm, hid, ?_⟩, rfl, rfl,
      ⟨?_, hacc.objects⟩, fun y hy p hp => ?_, rfl⟩
    · exact ⟨rfl, Function.update_self ..⟩
    · have hp := h.blocks.cons m.allocated
      simp only [List.filterMap_cons]
      refine List.perm_middle.trans (hp.trans ?_)
      rw [List.range_succ]
      exact (List.perm_append_singleton _ _).symm
    · exact Function.update_of_ne (Nat.ne_of_lt (h.block_lt hy hp)) _ _

theorem Holds.getCallee (hh : Holds C m f x) : getCallee m f = some x.object := by
  have hst := hh.stored
  unfold Held.Stored at hst
  cases hb : x.block with
  | none =>
    have hin : f.inlineFlag = true := by rw [hh.inlineFlag, ← hh.block, hb]; rfl
    simp only [hb] at hst
    simp only [UniqueFunction.getCallee, hin, hst]
  | some p =>
    have hin : f.inlineFlag = false := by rw [hh.inlineFlag, ← hh.block, hb]; rfl
    simp only [hb] at hst
    simp only [UniqueFunction.getCallee, hin, hst.1, hst.2, Option.map_some]

/-- The destructor of the callable. -/
theorem Accounts.destroyObject {o : Object κ σ} {block : Option Nat}
    (h : Accounts m (⟨o, block⟩ :: hs)) :
    Accounts (destroyObject m o) (⟨{ o with id := none }, block⟩ :: hs) := by
  refine ⟨by simpa [UniqueFunction.destroyObject, List.filterMap_cons] using h.blocks, ?_⟩
  have ho := h.objects
  cases hid : o.id with
  | none => simpa [UniqueFunction.destroyObject, hid] using ho
  | some i =>
    simp only [UniqueFunction.destroyObject, hid, Option.toList_some, List.filterMap_cons,
      List.cons_append] at ho ⊢
    exact List.perm_middle.symm.trans ho

/-- An inline callable is left in storage that is given up. -/
theorem Accounts.abandon {o : Object κ σ} (h : Accounts m (⟨o, none⟩ :: hs)) :
    Accounts { m with abandoned := o.id.toList ++ m.abandoned } hs := by
  refine ⟨by simpa using h.blocks, ?_⟩
  have ho := h.objects
  cases hid : o.id with
  | none => simpa [hid] using ho
  | some i =>
    simp only [List.filterMap_cons, hid] at ho
    show (m.destroyed ++ (i :: m.abandoned) ++ _).Perm _
    refine List.Perm.trans ?_ (List.perm_middle.symm.trans ho)
    exact List.perm_middle.append_right _

/-- A call changes the callable where it lies. -/
theorem Holds.setCallee (hh : Holds C m f x) (h : Accounts m (x :: hs)) (s : σ) :
    ∃ m' f' y, setCallee m f { x.object with state := s } = (m', f') ∧ Holds C m' f' y ∧
      y.object.type = x.object.type ∧ y.object.state = s ∧ Accounts m' (y :: hs) ∧ Agree m m' hs ∧
      m'.abandoned = m.abandoned := by
  have hst := hh.stored
  unfold Held.Stored at hst
  unfold UniqueFunction.setCallee
  obtain ⟨o, block⟩ := x
  have hacc : Accounts m (⟨{ o with state := s }, block⟩ :: hs) := ⟨h.blocks, h.objects⟩
  cases block with
  | none =>
    dsimp only at hst
    simp only [hst]
    exact ⟨_, _, ⟨{ o with state := s }, none⟩, rfl, ⟨hh.callback, hh.inlineFlag, hh.block, hh.id, rfl⟩,
      rfl, rfl, hacc, .of_heap hs rfl, rfl⟩
  | some p =>
    dsimp only at hst
    simp only [hst.1, hst.2, Option.map_some]
    refine ⟨_, f, ⟨{ o with state := s }, some p⟩, rfl, ⟨hh.callback, hh.inlineFlag, hh.block, hh.id,
      ⟨hst.1, Function.update_self ..⟩⟩, rfl, rfl, ⟨hacc.blocks, hacc.objects⟩, fun y hy q hq => ?_, rfl⟩
    have hne : q ≠ p := fun he => h.block_ne rfl hy (he ▸ hq)
    exact Function.update_of_ne hne _ _

variable [DecidableEq κ]

/-- **The destructor of a function frees the block and destroys the callable.** -/
theorem Holds.destruct (hh : Holds C m f x) (h : Accounts m (x :: hs)) :
    ∃ m', destruct C m f = some m' ∧ Accounts m' hs ∧ Agree m m' hs ∧ m'.abandoned = m.abandoned := by
  obtain ⟨o, block⟩ := x
  -- the callable first
  obtain ⟨m₁, hm₁, hacc, hheap, hab⟩ : ∃ m₁, (if C.isTrivial o.type then some m
      else (UniqueFunction.getCallee m f).bind fun o' =>
        if o'.type = o.type then some (UniqueFunction.destroyObject m o') else none) = some m₁ ∧
      Accounts m₁ (⟨{ o with id := none }, block⟩ :: hs) ∧ m₁.heap = m.heap ∧
      m₁.abandoned = m.abandoned := by
    cases ht : C.isTrivial o.type with
    | true =>
      have hid : o.id = none := Option.isNone_iff_eq_none.mp (hh.id.trans ht)
      refine ⟨m, rfl, ?_, rfl, rfl⟩
      rw [← hid]
      exact h
    | false =>
      refine ⟨UniqueFunction.destroyObject m o, ?_, h.destroyObject, rfl, rfl⟩
      rw [hh.getCallee]
      simp
  have hst := hh.stored
  unfold Held.Stored at hst
  unfold UniqueFunction.destruct
  simp only [hh.callback, hm₁, hh.inlineFlag, ← hh.block, Option.bind_some]
  cases block with
  | none => exact ⟨m₁, rfl, ⟨by simpa using hacc.blocks, by simpa using hacc.objects⟩, .of_heap hs hheap, hab⟩
  | some p =>
    dsimp only at hst
    have hp : m₁.heap p = some ⟨C.size o.type, C.alignment o.type, o⟩ :=
      (congrFun hheap p).trans hst.2
    refine ⟨{ m₁ with heap := Function.update m₁.heap p none, freed := p :: m₁.freed }, ?_, ⟨?_, ?_⟩, ?_, hab⟩
    · simp [freeStorage, hst.1, hp]
    · have hb := hacc.blocks
      simp only [List.filterMap_cons] at hb
      exact List.perm_middle.symm.trans hb
    · simpa using hacc.objects
    · intro y hy q hq
      have hne : q ≠ p := fun he => h.block_ne rfl hy (he ▸ hq)
      exact (Function.update_of_ne hne _ _).trans (congrFun hheap q)

/-- **The move constructor.** An inline callable that has a destructor is moved into a new one, and
left behind. -/
theorem Holds.moveConstruct (hh : Holds C m f x) (h : Accounts m (x :: hs)) :
    ∃ m' f' rhs y, moveConstruct C m f = some (m', f', rhs) ∧ Holds C m' f' y ∧ rhs.callback = none ∧
      y.object.type = x.object.type ∧ y.object.state = x.object.state ∧ Accounts m' (y :: hs) ∧
      Agree m m' hs ∧
      m'.abandoned.length = m.abandoned.length + leaves C (some (x.object.type, x.object.state)) := by
  have hst := hh.stored
  unfold Held.Stored at hst
  unfold UniqueFunction.moveConstruct
  simp only [hh.callback, hh.inlineFlag]
  obtain ⟨o, block⟩ := x
  cases block with
  | some p =>
    have hin : C.isInline o.type = false := hh.block.symm
    dsimp only at hst
    simp only [hin, if_true, hst.1]
    exact ⟨m, f, _, _, rfl, hh, rfl, rfl, rfl, h, .of_heap hs rfl, by simp [leaves, hin]⟩
  | none =>
    have hin : C.isInline o.type = true := hh.block.symm
    dsimp only at hst
    simp only [hin, Bool.true_eq_false, if_false]
    cases ht : C.isTrivial o.type with
    | true => exact ⟨m, f, _, _, rfl, hh, rfl, rfl, rfl, h, .of_heap hs rfl, by simp [leaves, ht]⟩
    | false =>
      obtain ⟨n, id, hnew, hid, hacc⟩ := newObject_spec C m o.type o.state
      have hlen : o.id.toList.length = 1 := by
        cases hoid : o.id with
        | none =>
          have := hh.id.trans ht
          rw [hoid] at this
          cases this
        | some i => rfl
      simp only [Bool.false_eq_true, if_false, hh.getCallee, Option.bind_some, if_true, hnew]
      refine ⟨_, _, _, ⟨⟨o.type, o.state, id⟩, none⟩, rfl, ⟨rfl, hin.symm, hin.symm, hid, rfl⟩, rfl, rfl,
        rfl, ?_, .of_heap hs rfl, ?_⟩
      · exact ((hacc _ h).perm (.swap _ _ _)).abandon
      · simp [leaves, hin, ht, hlen, Nat.add_comm]

end Operations

/-! ## Programs -/

section Programs

variable {κ σ α ρ : Type} {C : Callables κ σ α ρ} {m m' : Memory κ σ}

/-- A function of the program, the callable that it holds, and what it means. -/
structure Cell (κ σ : Type) where
  function : Option (Base κ σ)
  held : Option (Held κ σ)
  content : Option (Option (κ × σ))

/-- A function that was destroyed, one that is empty, and one that holds a callable. -/
inductive Cell.Ok (C : Callables κ σ α ρ) (m : Memory κ σ) : Cell κ σ → Prop
  | dead : Cell.Ok C m ⟨none, none, none⟩
  | empty {f : Base κ σ} : f.callback = none → Cell.Ok C m ⟨some f, none, some none⟩
  | holds {f : Base κ σ} {h : Held κ σ} : Holds C m f h →
    Cell.Ok C m ⟨some f, some h, some (some (h.object.type, h.object.state))⟩

theorem Cell.Ok.agree {c : Cell κ σ} (hc : c.Ok C m) {hs : List (Held κ σ)} (ha : Agree m m' hs)
    (hm : ∀ h ∈ c.held, h ∈ hs) : c.Ok C m' := by
  cases hc with
  | dead => exact .dead
  | empty hf => exact .empty hf
  | holds hh => exact .holds (hh.agree ha (hm _ rfl))

/-- What the functions hold. -/
def heldBy (cells : List (Cell κ σ)) : List (Held κ σ) := cells.flatMap fun c => c.held.toList

/-- The functions are as `cells` says, and beside them the callables `hs` are held. -/
structure Inv (C : Callables κ σ α ρ) (m : Memory κ σ) (cells : List (Cell κ σ))
    (hs : List (Held κ σ)) : Prop where
  ok : ∀ c ∈ cells, c.Ok C m
  accounts : Accounts m (hs ++ heldBy cells)

namespace Inv

variable {cells : List (Cell κ σ)} {hs hs' : List (Held κ σ)} {c c' : Cell κ σ} {i : Nat}

theorem heldBy_set (hi : cells[i]? = some c) (c' : Cell κ σ) :
    ∃ rest, (heldBy cells).Perm (c.held.toList ++ rest) ∧
      (heldBy (cells.set i c')).Perm (c'.held.toList ++ rest) :=
  Agenda.Replaced.flatMap_set hi ⟨[], by simp, by simp⟩

theorem heldBy_set_congr (cells : List (Cell κ σ)) (i : Nat) (h : c.held = c'.held) :
    heldBy (cells.set i c) = heldBy (cells.set i c') := by
  have hmap : ∀ l : List (Cell κ σ), heldBy l = (l.map Cell.held).flatMap Option.toList := fun l => by
    rw [List.flatMap_map]
    rfl
  rw [hmap, hmap, List.map_set, List.map_set, h]

/-- A function gives up what it holds. -/
theorem takeOut (h : Inv C m cells hs) (hi : cells[i]? = some c) (hc' : c'.held = none)
    (hok : c'.Ok C m) : Inv C m (cells.set i c') (c.held.toList ++ hs) where
  ok y hy := (List.mem_or_eq_of_mem_set hy).elim (h.ok y) fun he => he ▸ hok
  accounts := by
    obtain ⟨rest, h1, h2⟩ := heldBy_set hi c'
    rw [hc', Option.toList_none, List.nil_append] at h2
    refine h.accounts.perm ((h1.append_left hs).trans ?_)
    refine .trans ?_ (h2.symm.append_left (c.held.toList ++ hs))
    rw [← List.append_assoc]
    exact List.perm_append_comm.append_right rest

/-- A function that holds nothing takes what is held beside the others. -/
theorem put (c' : Cell κ σ) (h : Inv C m cells c'.held.toList) (hi : cells[i]? = some c) (hc : c.held = none)
    (hok : c'.Ok C m) : Inv C m (cells.set i c') [] where
  ok y hy := (List.mem_or_eq_of_mem_set hy).elim (h.ok y) fun he => he ▸ hok
  accounts := by
    obtain ⟨rest, h1, h2⟩ := heldBy_set hi c'
    rw [hc, Option.toList_none, List.nil_append] at h1
    exact h.accounts.perm ((h1.append_left _).trans h2.symm)

/-- A new function takes it. -/
theorem append (h : Inv C m cells c.held.toList) (hok : c.Ok C m) : Inv C m (cells ++ [c]) [] where
  ok y hy := (List.mem_append.mp hy).elim (h.ok y) fun he => List.mem_singleton.mp he ▸ hok
  accounts := by
    refine h.accounts.perm ?_
    simp only [heldBy, List.flatMap_append, List.flatMap_cons, List.flatMap_nil, List.append_nil,
      List.nil_append]
    exact List.perm_append_comm

/-- The memory changes. -/
theorem mem (h : Inv C m cells hs) (hacc : Accounts m' (hs' ++ heldBy cells))
    (ha : Agree m m' (heldBy cells)) : Inv C m' cells hs' where
  ok c hc := (h.ok c hc).agree ha fun _ hx => List.mem_flatMap.mpr ⟨c, hc, Option.mem_toList.mpr hx⟩
  accounts := hacc

variable [DecidableEq κ]

/-- The function at `i` is destroyed. -/
theorem destruct {f : Base κ σ} (h : Inv C m cells []) (hi : cells[i]? = some c) (c' : Cell κ σ)
    (hf : c.function = some f) (hc' : c'.held = none) (hok : ∀ m, c'.Ok C m) :
    ∃ m', destruct C m f = some m' ∧ Inv C m' (cells.set i c') [] ∧ m'.abandoned = m.abandoned := by
  have hout := h.takeOut hi hc' (hok m)
  cases h.ok c (List.mem_of_getElem? hi) with
  | dead => cases hf
  | empty hnone =>
    cases hf
    exact ⟨m, by simp only [UniqueFunction.destruct, hnone], hout, rfl⟩
  | holds hh =>
    cases hf
    obtain ⟨m', hm, hacc, ha, hab⟩ := hh.destruct hout.accounts
    exact ⟨m', hm, hout.mem hacc ha, hab⟩

/-- The function at `i` is moved from. -/
theorem moveConstruct {f : Base κ σ} {ct : Option (κ × σ)} (h : Inv C m cells [])
    (hi : cells[i]? = some c) (hf : c.function = some f) (hct : c.content = some ct) :
    ∃ m' f' rhs x, moveConstruct C m f = some (m', f', rhs) ∧
      Cell.Ok C m' ⟨some f', x, some ct⟩ ∧
      Inv C m' (cells.set i ⟨some rhs, none, some none⟩) x.toList ∧
      m'.abandoned.length = m.abandoned.length + leaves C ct := by
  cases h.ok c (List.mem_of_getElem? hi) with
  | dead => cases hf
  | @empty f hnone =>
    cases hf
    cases hct
    exact ⟨m, { inlineFlag := f.inlineFlag }, f, none, by simp only [UniqueFunction.moveConstruct, hnone],
      .empty rfl, h.takeOut hi rfl (.empty hnone), rfl⟩
  | @holds f x hh =>
    cases hf
    cases hct
    have hout : ∀ rhs : Base κ σ, rhs.callback = none →
        Inv C m (cells.set i ⟨some rhs, none, some none⟩) [x] :=
      fun rhs hr => h.takeOut hi rfl (.empty hr)
    have hsame : ∀ rhs : Base κ σ, heldBy (cells.set i ⟨some {}, none, some none⟩) =
        heldBy (cells.set i ⟨some rhs, none, some none⟩) :=
      fun rhs => heldBy_set_congr cells i rfl
    obtain ⟨m', f', rhs, y, hm, hy, hr, htype, hstate, hacc, ha, hab⟩ :=
      hh.moveConstruct (hout {} rfl).accounts
    refine ⟨m', f', rhs, some y, hm, ?_, (hout rhs hr).mem ?_ ?_, hab⟩
    · rw [← htype, ← hstate]
      exact .holds hy
    · exact hsame rhs ▸ hacc
    · exact hsame rhs ▸ ha

end Inv

/-! ## Runs -/

/-- The block of a function. -/
def Base.block (f : Base κ σ) : Option Nat :=
  match f.callback, f.inlineFlag, f.storage with
  | some _, false, .outOfLineStorage p _ _ => some p
  | _, _, _ => none

/-- The number of the callable of a function, if it has a destructor. -/
def Base.objectId (m : Memory κ σ) (f : Base κ σ) : Option Nat :=
  f.callback.bind fun _ => (getCallee m f).bind Object.id

/-- The blocks of the functions. -/
def St.blocks (st : St κ σ) : List Nat := st.functions.filterMap fun f => f.bind Base.block

/-- The callables of the functions that have a destructor. -/
def St.objects (st : St κ σ) : List Nat := st.functions.filterMap fun f => f.bind (Base.objectId st.mem)

/-- Each block that was allocated was freed once or belongs to one function, and each callable that was
constructed was destroyed once, left behind once or belongs to one function. -/
def St.Balanced (st : St κ σ) : Prop :=
  (st.mem.freed ++ st.blocks).Perm (List.range st.mem.allocated) ∧
    (st.mem.destroyed ++ st.mem.abandoned ++ st.objects).Perm (List.range st.mem.constructed)

/-- The functions of the program mean what those of `a` are. -/
def Refines (C : Callables κ σ α ρ) (st : St κ σ) (a : Spec κ σ) : Prop :=
  ∃ cells : List (Cell κ σ), st.functions = cells.map Cell.function ∧
    a.functions = cells.map Cell.content ∧ Inv C st.mem cells [] ∧ st.mem.abandoned.length = a.moves

theorem Cell.Ok.block {c : Cell κ σ} (hc : c.Ok C m) :
    c.function.bind Base.block = c.held.bind Held.block := by
  cases hc with
  | dead => rfl
  | empty hf => simp only [Option.bind_some, Base.block, hf, Option.bind_none]
  | @holds f x hh =>
    have hst := hh.stored
    unfold Held.Stored at hst
    simp only [Option.bind_some, Base.block, hh.callback, hh.inlineFlag, ← hh.block]
    cases hb : x.block with
    | none => simp
    | some p =>
      simp only [hb] at hst
      simp [hst.1]

theorem Cell.Ok.objectId {c : Cell κ σ} (hc : c.Ok C m) :
    c.function.bind (Base.objectId m) = c.held.bind fun h => h.object.id := by
  cases hc with
  | dead => rfl
  | empty hf => simp only [Option.bind_some, Base.objectId, hf, Option.bind_none]
  | holds hh => simp only [Option.bind_some, Base.objectId, hh.callback, hh.getCallee]

theorem filterMap_heldBy {β : Type} (g : Held κ σ → Option β) (cells : List (Cell κ σ)) :
    (heldBy cells).filterMap g = cells.filterMap fun c => c.held.bind g := by
  induction cells with
  | nil => rfl
  | cons c cells ih =>
    simp only [heldBy, List.flatMap_cons, List.filterMap_append, List.filterMap_cons] at ih ⊢
    rw [ih]
    cases c.held with
    | none => rfl
    | some h => cases hg : g h <;> simp [hg]

theorem Refines.balanced {st : St κ σ} {a : Spec κ σ} (h : Refines C st a) : st.Balanced := by
  obtain ⟨cells, hf, -, hinv, -⟩ := h
  have hacc := hinv.accounts
  rw [List.nil_append] at hacc
  constructor
  · have hb : st.blocks = (heldBy cells).filterMap Held.block := by
      rw [filterMap_heldBy, St.blocks, hf, List.filterMap_map]
      exact List.filterMap_congr fun c hc => (hinv.ok c hc).block
    rw [hb]
    exact hacc.blocks
  · have hb : st.objects = (heldBy cells).filterMap fun h => h.object.id := by
      rw [filterMap_heldBy, St.objects, hf, List.filterMap_map]
      exact List.filterMap_congr fun c hc => (hinv.ok c hc).objectId
    rw [hb]
    exact hacc.objects

/-- A function can be used in the program if it can be used in the meaning. -/
theorem Inv.lookup {cells : List (Cell κ σ)} {hs : List (Held κ σ)} (h : Inv C m cells hs) (moves i : Nat) :
    (St.get ⟨m, cells.map Cell.function⟩ i = none ∧
      Spec.get ⟨cells.map Cell.content, moves⟩ i = none) ∨
    ∃ c f ct, cells[i]? = some c ∧ c.function = some f ∧ c.content = some ct ∧
      St.get ⟨m, cells.map Cell.function⟩ i = some f ∧
      Spec.get ⟨cells.map Cell.content, moves⟩ i = some ct := by
  simp only [St.get, Spec.get, List.getElem?_map]
  cases hi : cells[i]? with
  | none => exact .inl ⟨rfl, rfl⟩
  | some c =>
    cases h.ok c (List.mem_of_getElem? hi) with
    | dead => exact .inl ⟨rfl, rfl⟩
    | empty => exact .inr ⟨_, _, _, rfl, rfl, rfl, rfl, rfl⟩
    | holds => exact .inr ⟨_, _, _, rfl, rfl, rfl, rfl, rfl⟩

variable [DecidableEq κ]

/-- The states and the answers of the program and of its meaning. -/
def Same (C : Callables κ σ α ρ) (p : St κ σ × Answer ρ) (q : Spec κ σ × Answer ρ) : Prop :=
  p.2 = q.2 ∧ Refines C p.1 q.1

theorem rel_cases {β γ : Type} {r : β → γ → Prop} {x : Option β} {y : Option γ} (h : Option.Rel r x y) :
    (x = none ∧ y = none) ∨ ∃ p q, x = some p ∧ y = some q ∧ r p q := by
  cases h with
  | none => exact .inl ⟨rfl, rfl⟩
  | some h => exact .inr ⟨_, _, rfl, rfl, h⟩

/-- **A step of the program is a step of its meaning.** -/
theorem step_refines {st : St κ σ} {a : Spec κ σ} (h : Refines C st a) (op : Op κ σ α) :
    Option.Rel (Same C) (step C st op) (spec C a op) := by
  obtain ⟨m, fs⟩ := st
  obtain ⟨as, moves⟩ := a
  obtain ⟨cells, rfl, rfl, hinv, hab⟩ := h
  dsimp only at hinv hab
  cases op with
  | construct k s =>
    obtain ⟨m', f, y, hm, hy, rfl, rfl, hacc, ha, hab'⟩ := construct_holds C hinv.accounts k s
    have hmem : Inv C m' cells [y] := hinv.mem hacc ha
    simp only [step, spec, hm]
    refine .some ⟨rfl, _, ?_, ?_, hmem.append (.holds hy), hab' ▸ hab⟩
    · simp
    · simp
  | default =>
    simp only [step, spec]
    refine .some ⟨rfl, _, ?_, ?_, Inv.append (c := ⟨some {}, none, some none⟩) hinv (.empty rfl), hab⟩
    · simp
    · simp
  | moveConstruct j =>
    obtain ⟨h1, h2⟩ | ⟨c, f, ct, hj, hf, hct, h1, h2⟩ := hinv.lookup moves j
    · simp only [step, spec, h1, h2, Option.bind_none, Option.map_none]
      exact .none
    · obtain ⟨m', f', rhs, x, hm, hok, hinv', hab'⟩ := hinv.moveConstruct hj hf hct
      simp only [step, spec, h1, h2, hm, Option.bind_some, Option.map_some]
      refine .some ⟨rfl, _, ?_, ?_, hinv'.append hok, hab'.trans (by rw [hab])⟩
      · simp [List.map_set]
      · simp [List.map_set]
  | moveAssign i j =>
    obtain ⟨h1, h2⟩ | ⟨c, f, ct, hi, hf, hct, h1, h2⟩ := hinv.lookup moves i
    · simp only [step, spec, h1, h2, Option.bind_none]
      exact .none
    obtain ⟨h3, h4⟩ | ⟨c', g, ct', hj, hg, hct', h3, h4⟩ := hinv.lookup moves j
    · simp only [step, spec, h1, h2, h3, h4, Option.bind_some, Option.bind_none, Option.map_none]
      exact .none
    simp only [step, spec, h1, h2, h3, h4, Option.bind_some, Option.map_some]
    by_cases hij : i = j
    · rw [if_pos hij, if_pos hij]
      exact .some ⟨rfl, _, rfl, rfl, hinv, hab⟩
    · -- between the two halves the function at `i` is no function
      obtain ⟨m₁, hm₁, hinv₁, hab₁⟩ :=
        hinv.destruct hi ⟨none, none, none⟩ hf rfl fun _ => .dead
      obtain ⟨m₂, f', rhs, x, hm₂, hok, hinv₂, hab₂⟩ :=
        hinv₁.moveConstruct ((List.getElem?_set_ne hij).trans hj) hg hct'
      have hi₂ : ((cells.set i ⟨none, none, none⟩).set j ⟨some rhs, none, some none⟩)[i]? =
          some ⟨none, none, none⟩ := by
        rw [List.getElem?_set_ne (Ne.symm hij)]
        exact List.getElem?_set_self (List.getElem?_eq_some_iff.mp hi).1
      have hinv₃ := Inv.put ⟨some f', x, some ct'⟩ hinv₂ hi₂ rfl hok
      rw [List.set_comm _ _ (Ne.symm hij), List.set_set] at hinv₃
      simp only [if_neg hij, hm₁, hm₂, Option.bind_some, Option.map_some]
      refine .some ⟨rfl, _, ?_, ?_, hinv₃, ?_⟩
      · simp [List.map_set]
      · simp [List.map_set]
      · exact hab₂.trans (by rw [hab₁, hab])
  | assignNull i =>
    obtain ⟨h1, h2⟩ | ⟨c, f, ct, hi, hf, hct, h1, h2⟩ := hinv.lookup moves i
    · simp only [step, spec, h1, h2, Option.bind_none, Option.map_none]
      exact .none
    · obtain ⟨m', hm, hinv', hab'⟩ :=
        hinv.destruct hi ⟨some {}, none, some none⟩ hf rfl fun _ => .empty rfl
      have hstep : step C ⟨m, cells.map Cell.function⟩ (.assignNull i : Op κ σ α) =
          some (⟨m', (cells.map Cell.function).set i (some {})⟩, .none) := by
        simp only [step, h1, hm, Option.bind_some]
        rfl
      simp only [hstep, spec, h2, Option.map_some]
      refine .some ⟨rfl, _, ?_, ?_, hinv', hab' ▸ hab⟩
      · simp [List.map_set]
      · simp [List.map_set]
  | destroy i =>
    obtain ⟨h1, h2⟩ | ⟨c, f, ct, hi, hf, hct, h1, h2⟩ := hinv.lookup moves i
    · simp only [step, spec, h1, h2, Option.bind_none, Option.map_none]
      exact .none
    · obtain ⟨m', hm, hinv', hab'⟩ :=
        hinv.destruct hi ⟨none, none, none⟩ hf rfl fun _ => .dead
      simp only [step, spec, h1, h2, hm, Option.bind_some, Option.map_some]
      refine .some ⟨rfl, _, ?_, ?_, hinv', hab' ▸ hab⟩
      · simp [List.map_set]
      · simp [List.map_set]
  | call i x =>
    obtain ⟨h1, h2⟩ | ⟨c, f, ct, hi, hf, hct, h1, h2⟩ := hinv.lookup moves i
    · simp only [step, spec, h1, h2, Option.bind_none]
      exact .none
    cases hinv.ok c (List.mem_of_getElem? hi) with
    | dead => cases hf
    | empty hnone =>
      cases hf
      cases hct
      simp only [step, spec, h1, h2, hnone, Option.bind_some, Option.bind_none, Option.map_none]
      exact .none
    | @holds f h hh =>
      cases hf
      cases hct
      have hout : Inv C m (cells.set i ⟨none, none, none⟩) [h] := hinv.takeOut hi rfl .dead
      obtain ⟨m', f', y, hm, hy, htype, hstate, hacc, ha, hab'⟩ :=
        hh.setCallee hout.accounts (C.call h.object.type h.object.state x).1
      have hmem : Inv C m' (cells.set i ⟨none, none, none⟩) [y] := hout.mem hacc ha
      have hput := Inv.put ⟨some f', some y, some (some (y.object.type, y.object.state))⟩ hmem
        (List.getElem?_set_self (List.getElem?_eq_some_iff.mp hi).1) rfl (.holds hy)
      rw [List.set_set] at hput
      simp only [step, spec, h1, h2, hh.callback, hh.getCallee, hm, Option.bind_some, Option.map_some,
        if_true]
      refine .some ⟨rfl, _, ?_, ?_, hput, hab' ▸ hab⟩
      · simp [List.map_set]
      · simp [List.map_set, htype, hstate]
  | test i =>
    obtain ⟨h1, h2⟩ | ⟨c, f, ct, hi, hf, hct, h1, h2⟩ := hinv.lookup moves i
    · simp only [step, spec, h1, h2, Option.map_none]
      exact .none
    · have hsome : f.callback.isSome = ct.isSome := by
        cases hinv.ok c (List.mem_of_getElem? hi) with
        | dead => cases hf
        | empty hnone =>
          cases hf
          cases hct
          rw [hnone]
          rfl
        | holds hh =>
          cases hf
          cases hct
          rw [hh.callback]
          rfl
      simp only [step, spec, h1, h2, Option.map_some, hsome]
      exact .some ⟨rfl, _, rfl, rfl, hinv, hab⟩

theorem runs_refine {st : St κ σ} {a : Spec κ σ} (h : Refines C st a) (ops : List (Op κ σ α)) :
    Option.Rel (fun p q => p.2 = q.2 ∧ Refines C p.1 q.1) (runs (step C) st ops) (runs (spec C) a ops) := by
  induction ops generalizing st a with
  | nil => exact .some ⟨rfl, h⟩
  | cons op ops ih =>
    unfold runs
    obtain ⟨h1, h2⟩ | ⟨p, q, h1, h2, hans, hpq⟩ := rel_cases (step_refines h op)
    · rw [h1, h2]
      exact .none
    · rw [h1, h2, Option.bind_some, Option.bind_some]
      obtain ⟨h3, h4⟩ | ⟨p', q', h3, h4, hans', hpq'⟩ := rel_cases (ih hpq)
      · rw [h3, h4]
        exact .none
      · rw [h3, h4, Option.map_some, Option.map_some]
        exact .some ⟨by rw [hans, hans'], hpq'⟩

/-- **A program with functions has the answers of its meaning**, it is undefined only if its meaning
is, and its blocks and its callables are accounted for. -/
theorem functions_refine (C : Callables κ σ α ρ) (ops : List (Op κ σ α)) :
    Option.Rel (fun p q => p.2 = q.2 ∧ p.1.Balanced ∧ p.1.mem.abandoned.length = q.1.moves)
      (runs (step C) {} ops) (runs (spec C) {} ops) := by
  have h0 : Refines C {} {} := by
    refine ⟨[], rfl, rfl, ⟨fun c hc => ?_, .refl _, .refl _⟩, rfl⟩
    cases hc
  obtain ⟨h1, h2⟩ | ⟨p, q, h1, h2, hans, hpq⟩ := rel_cases (runs_refine h0 ops)
  · rw [h1, h2]
    exact .none
  · rw [h1, h2]
    obtain ⟨cells, -, -, -, hab⟩ := id hpq
    exact .some ⟨hans, hpq.balanced, hab⟩

end Programs

end UniqueFunction

end AsyncLib
