import AsyncLib.Lib.Agenda
import Mathlib.Data.List.Perm.Basic
import Mathlib.Data.List.Range
import Mathlib.Logic.Function.Basic

/-!
# `unique_function`

`async/support/unique_function.h`, of which every task of a work queue is one (`TaskFunction`). A
callable lies in the function itself if it is small, and in a block of its own otherwise; a type that
is trivial to move and to destroy is moved by `memcpy`.

* `Callables`: what the templates read of a callable type. `Base`, `Memory`: a function, and the blocks
  and callables that the functions of a program made.
* `Op`, `step`, `run`: a program that makes, moves, assigns, calls and destroys functions. `none` is
  undefined behaviour: a block is freed twice, a callable is read from storage that holds none or one of
  another type, a function that is destroyed or empty is used.
* `spec`: the same program where a function is a callable or nothing.
* `functions_refine`: both give the same answers, no block is lost or freed twice, and no callable is
  destroyed twice. What an inline callable that is moved leaves behind is never destroyed.

Allocation succeeds, and moves of callables do not throw.
-/

namespace AsyncLib

namespace UniqueFunction

/-! ## The code -/

/-- The callable types `κ`. A callable has a state, which its call may change. -/
structure Callables (κ σ α ρ : Type) where
  size : κ → Nat
  alignment : κ → Nat
  /-- `is_trivially_move_constructible` and `is_trivially_destructible`. -/
  isTrivial : κ → Bool
  call : κ → σ → α → σ × ρ
  /-- What the move constructor leaves in its source. -/
  moved : κ → σ → σ

/-- A callable in storage. A callable that has a destructor has a number. -/
structure Object (κ σ : Type) where
  type : κ
  state : σ
  id : Option Nat
  deriving DecidableEq, Repr

/-- `StorageUnionT`. -/
inductive Storage (κ σ : Type) where
  | inlineStorage (object : Option (Object κ σ))
  | outOfLineStorage (storagePtr size alignment : Nat)
  deriving DecidableEq, Repr

/-- `UniqueFunctionBase`; the callbacks are those of a callable type, or null. -/
structure Base (κ σ : Type) where
  callback : Option κ := none
  inlineFlag : Bool := false
  storage : Storage κ σ := .inlineStorage none
  deriving DecidableEq, Repr

/-- A block of the heap, with the callable in it. -/
structure Block (κ σ : Type) where
  size : Nat
  alignment : Nat
  object : Object κ σ
  deriving DecidableEq, Repr

/-- The heap, and the ledger of its blocks and of the callables. -/
structure Memory (κ σ : Type) where
  heap : Nat → Option (Block κ σ) := fun _ => none
  /-- The blocks that were allocated, and those that were freed. -/
  allocated : Nat := 0
  freed : List Nat := []
  /-- The callables with a destructor that were constructed, those that were destroyed, and those that
  were left in the storage of a function that does not know of them any more. -/
  constructed : Nat := 0
  destroyed : List Nat := []
  abandoned : List Nat := []

/-- `kInlineStorageSize`: three pointers. -/
def kInlineStorageSize : Nat := 24

/-- `alignof(void *)`. -/
def kInlineAlignment : Nat := 8

section Code

variable {κ σ α ρ : Type} [DecidableEq κ] (C : Callables κ σ α ρ)

/-- The callable is stored in the function itself. -/
def Callables.isInline (k : κ) : Bool :=
  !(decide (kInlineStorageSize < C.size k) || decide (kInlineAlignment < C.alignment k))

/-- `new (callableAddr) CallableT(std::move(callable))`. -/
def newObject (m : Memory κ σ) (k : κ) (s : σ) : Memory κ σ × Object κ σ :=
  if C.isTrivial k then (m, ⟨k, s, none⟩)
  else ({ m with constructed := m.constructed + 1 }, ⟨k, s, some m.constructed⟩)

/-- The constructor from a callable. -/
def construct (m : Memory κ σ) (k : κ) (s : σ) : Memory κ σ × Base κ σ :=
  let p := newObject C m k s
  if C.isInline k then
    (p.1, { callback := some k, inlineFlag := true, storage := .inlineStorage (some p.2) })
  else
    ({ p.1 with
        heap := Function.update m.heap m.allocated (some ⟨C.size k, C.alignment k, p.2⟩)
        allocated := m.allocated + 1 },
      { callback := some k, inlineFlag := false
        storage := .outOfLineStorage m.allocated (C.size k) (C.alignment k) })

/-- What lies at `getCalleePtr()`. -/
def getCallee (m : Memory κ σ) (f : Base κ σ) : Option (Object κ σ) :=
  match f.inlineFlag, f.storage with
  | true, .inlineStorage object => object
  | false, .outOfLineStorage p _ _ => (m.heap p).map Block.object
  | _, _ => none

/-- `DestroyImpl`. -/
def destroyObject (m : Memory κ σ) (o : Object κ σ) : Memory κ σ :=
  { m with destroyed := o.id.toList ++ m.destroyed }

/-- `free(getOutOfLineStorage())`. -/
def freeStorage (m : Memory κ σ) (f : Base κ σ) : Option (Memory κ σ) :=
  match f.storage with
  | .outOfLineStorage p _ _ => (m.heap p).map fun _ =>
    { m with heap := Function.update m.heap p none, freed := p :: m.freed }
  | .inlineStorage _ => none

/-- `~UniqueFunctionBase`. -/
def destruct (m : Memory κ σ) (f : Base κ σ) : Option (Memory κ σ) :=
  match f.callback with
  | none => some m
  | some k =>
    let m := if C.isTrivial k then some m
      else (getCallee m f).bind fun o => if o.type = k then some (destroyObject m o) else none
    if f.inlineFlag then m else m.bind fun m => freeStorage m f

/-- `UniqueFunctionBase(UniqueFunctionBase &&rhs)`: the new function, and `rhs`. -/
def moveConstruct (m : Memory κ σ) (rhs : Base κ σ) : Option (Memory κ σ × Base κ σ × Base κ σ) :=
  match rhs.callback with
  | none => some (m, { inlineFlag := rhs.inlineFlag }, rhs)
  | some k =>
    if rhs.inlineFlag = false then
      match rhs.storage with
      | .outOfLineStorage _ _ _ => some (m, rhs, { rhs with callback := none, inlineFlag := false })
      | .inlineStorage _ => none
    else if C.isTrivial k then some (m, rhs, { rhs with callback := none, inlineFlag := false })
    else
      (getCallee m rhs).bind fun o =>
        if o.type = k then
          let p := newObject C m k o.state
          some ({ p.1 with abandoned := o.id.toList ++ m.abandoned },
            { callback := some k, inlineFlag := true, storage := .inlineStorage (some p.2) },
            { storage := .inlineStorage (some { o with state := C.moved k o.state }) })
        else none

/-- The callable at `getCalleePtr()` becomes `o`. -/
def setCallee (m : Memory κ σ) (f : Base κ σ) (o : Object κ σ) : Memory κ σ × Base κ σ :=
  match f.storage with
  | .inlineStorage _ => (m, { f with storage := .inlineStorage (some o) })
  | .outOfLineStorage p _ _ =>
    ({ m with heap := Function.update m.heap p ((m.heap p).map fun b => { b with object := o }) }, f)

/-! ## Programs -/

/-- What a program does with its functions, which are named in the order in which they are made. -/
inductive Op (κ σ α : Type) where
  | construct (k : κ) (s : σ)
  /-- The default constructor, or the one from `nullptr`. -/
  | default
  | moveConstruct (j : Nat)
  | moveAssign (i j : Nat)
  /-- `f = nullptr`. -/
  | assignNull (i : Nat)
  | destroy (i : Nat)
  | call (i : Nat) (a : α)
  /-- `operator bool`. -/
  | test (i : Nat)
  deriving DecidableEq, Repr

/-- What an operation answers. -/
inductive Answer (ρ : Type) where
  | none
  | bool (b : Bool)
  | result (r : ρ)
  deriving DecidableEq, Repr

/-- The functions and the memory. -/
structure St (κ σ : Type) where
  mem : Memory κ σ := {}
  /-- A function that was destroyed is `none`. -/
  functions : List (Option (Base κ σ)) := []

/-- The function `i`, if it exists. -/
def St.get (st : St κ σ) (i : Nat) : Option (Base κ σ) := (st.functions[i]?).join

/-- An operation on the functions; `none` if it names a function that does not exist. -/
def step (st : St κ σ) : Op κ σ α → Option (St κ σ × Answer ρ)
  | .construct k s =>
    let p := construct C st.mem k s
    some (⟨p.1, st.functions ++ [some p.2]⟩, .none)
  | .default => some (⟨st.mem, st.functions ++ [some {}]⟩, .none)
  | .moveConstruct j => (st.get j).bind fun rhs =>
    (moveConstruct C st.mem rhs).map fun p =>
      (⟨p.1, st.functions.set j (some p.2.2) ++ [some p.2.1]⟩, .none)
  | .moveAssign i j => (st.get i).bind fun lhs => (st.get j).bind fun rhs =>
    if i = j then some (st, .none)
    else (destruct C st.mem lhs).bind fun m => (moveConstruct C m rhs).map fun p =>
      (⟨p.1, (st.functions.set i (some p.2.1)).set j (some p.2.2)⟩, .none)
  | .assignNull i => (st.get i).bind fun lhs =>
    -- the right-hand side is a temporary function
    (destruct C st.mem lhs).bind fun m => (moveConstruct C m {}).bind fun p =>
      (destruct C p.1 p.2.2).map fun m => (⟨m, st.functions.set i (some p.2.1)⟩, .none)
  | .destroy i => (st.get i).bind fun f =>
    (destruct C st.mem f).map fun m => (⟨m, st.functions.set i none⟩, .none)
  | .call i a => (st.get i).bind fun f => f.callback.bind fun k => (getCallee st.mem f).bind fun o =>
    if o.type = k then
      let p := C.call k o.state a
      let q := setCallee st.mem f { o with state := p.1 }
      some (⟨q.1, st.functions.set i (some q.2)⟩, .result p.2)
    else none
  | .test i => (st.get i).map fun f => (st, .bool f.callback.isSome)

/-! ## What a program means -/

/-- The functions, each with a callable or none, and how often an inline callable that has a
destructor was moved. -/
structure Spec (κ σ : Type) where
  functions : List (Option (Option (κ × σ))) := []
  moves : Nat := 0

/-- The function `i`, if it exists. -/
def Spec.get (a : Spec κ σ) (i : Nat) : Option (Option (κ × σ)) := (a.functions[i]?).join

/-- The moves of inline callables when `c` is moved. -/
def leaves (c : Option (κ × σ)) : Nat :=
  match c with
  | some (k, _) => if C.isInline k && !C.isTrivial k then 1 else 0
  | none => 0

/-- The operation on functions that simply hold their callables. -/
def spec (a : Spec κ σ) : Op κ σ α → Option (Spec κ σ × Answer ρ)
  | .construct k s => some ({ a with functions := a.functions ++ [some (some (k, s))] }, .none)
  | .default => some ({ a with functions := a.functions ++ [some none] }, .none)
  | .moveConstruct j => (a.get j).map fun c =>
    (⟨a.functions.set j (some none) ++ [some c], a.moves + leaves C c⟩, .none)
  | .moveAssign i j => (a.get i).bind fun _ => (a.get j).map fun c =>
    if i = j then (a, .none)
    else (⟨(a.functions.set i (some c)).set j (some none), a.moves + leaves C c⟩, .none)
  | .assignNull i => (a.get i).map fun _ =>
    ({ a with functions := a.functions.set i (some none) }, .none)
  | .destroy i => (a.get i).map fun _ => ({ a with functions := a.functions.set i none }, .none)
  | .call i x => (a.get i).bind fun c => c.map fun p =>
    let q := C.call p.1 p.2 x
    ({ a with functions := a.functions.set i (some (some (p.1, q.1))) }, .result q.2)
  | .test i => (a.get i).map fun c => (a, .bool c.isSome)

/-- The state and the answers after a list of operations. -/
def runs {τ : Type} (f : τ → Op κ σ α → Option (τ × Answer ρ)) :
    τ → List (Op κ σ α) → Option (τ × List (Answer ρ))
  | s, [] => some (s, [])
  | s, op :: ops => (f s op).bind fun p => (runs f p.1 ops).map fun q => (q.1, p.2 :: q.2)

end Code

end UniqueFunction

end AsyncLib
