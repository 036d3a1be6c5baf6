import AsyncLib.Lib.System
import AsyncLib.Lib.Agenda
import AsyncLib.Context.Heap

/-!
# Chains of `IndirectAsyncValue::ForwardTo`

Any number of clients make values, copy and drop references, resolve concrete values and forward
indirect values, in any order. The closures that a resolution releases run on the thread of the
client that resolved the value, interleaved with the steps of all others.

* `St`: the heap, the `ForwardTo` calls made so far (`fwd`), the references that the clients hold
  (`handles`), and what the threads in `RunWaiters` still have to do.
* `step`: one call, or one act of a thread. The caller of `ForwardTo` holds the indirect value,
  calls it at most once for each (`fwd i = none`), and hands over a reference to the target.
* `ChainEnd`: the concrete value in which the forwarding chain of a value ends.
* `forward_correct`: what holds in every state reached, and when no thread is busy.
-/

namespace AsyncLib

namespace Forward

open AsyncValue Sys Agenda

/-! ## The model -/

/-- What a thread in `RunWaiters` has to do: run a closure of `ForwardTo`, or drop the reference
`this2` of one that has run. -/
inductive Act where
  | forwardTo (this2 value2 : Addr)
  | dropRef (a : Addr)
  deriving DecidableEq, Repr

/-- The act of a closure that was waiting. -/
def Act.ofWaiter : Waiter Empty → Act
  | .forward i v => .forwardTo i v

@[simp] theorem Act.ofWaiter_forward (i v : Addr) :
    Act.ofWaiter (.forward i v) = .forwardTo i v := rfl

/-- The heap, where each indirect value was forwarded, the handles of the clients, and the stacks.
-/
structure St (V E : Type) where
  heap : Heap V E Empty
  fwd : Addr → Option Addr
  handles : Addr → Nat
  threads : List (List Act)

/-- A client makes a value, uses or drops one of its handles, or a thread goes on. -/
inductive Label (V E : Type) where
  /-- `MakeUnconstructedAsyncValueRef`, `MakeConstructedAsyncValueRef`,
  `MakeAvailableAsyncValueRef`, `MakeErrorAsyncValueRef` or `MakeIndirectAsyncValue`. -/
  | make (kind : Kind) (st : State) (ty : Nat) (out : Option (Except E V))
  | addRef (a : Addr)
  | dropRef (a : Addr)
  /-- `emplace` or `SetStateConcrete`. -/
  | emplace (a : Addr)
  | setError (a : Addr) (ty : Nat) (out : Option (Except E V))
  | forwardTo (i v : Addr)
  /-- The thread `t` takes a step. -/
  | run (t : Nat)

variable {V E : Type}

/-- No value was made yet. -/
def start : St V E where
  heap := ⟨fun _ => ⟨.kConcrete, 0, 0, .kUnconstructed, [], none, none⟩, 0⟩
  fwd _ := none
  handles _ := 0
  threads := []

/-- A call returned the heap and the closures that its thread has to run. -/
def St.spawn (s : St V E) (r : Heap V E Empty × List (Waiter Empty)) : St V E :=
  { s with heap := r.1, threads := r.2.map Act.ofWaiter :: s.threads }

/-- `setError` on an indirect value makes an error value and forwards to it. -/
def St.setError (s : St V E) (a : Addr) (ty : Nat) (out : Option (Except E V)) : St V E :=
  match (s.heap.cell a).mKind with
  | .kConcrete => s.spawn (s.heap.notifyAvailable a .kError)
  | .kIndirect =>
    let h := s.heap.alloc ⟨.kConcrete, 1, ty, .kError, [], none, out⟩
    { s with fwd := Function.update s.fwd a (some s.heap.next) }.spawn (h.forwardTo a s.heap.next)

/-- One act of the thread `t`. -/
def St.run (s : St V E) (t : Nat) : Option (St V E) :=
  match s.threads[t]? with
  | some (.forwardTo i v :: rest) =>
    let r := s.heap.forwardTo i v
    some { s with
      heap := r.1, threads := s.threads.set t (r.2.map Act.ofWaiter ++ .dropRef i :: rest) }
  | some (.dropRef a :: rest) =>
    some { s with heap := s.heap.dropRef a 1, threads := s.threads.set t rest }
  | _ => none

/-- One step; `none` if the client has no such handle, or an assertion fails. -/
def step (s : St V E) : Label V E → Option (St V E)
  | .make kind st ty out =>
    if kind = .kIndirect → st = .kUnconstructed then
      some { s with
        heap := s.heap.alloc ⟨kind, 1, ty, st, [], none, out⟩
        handles := Function.update s.handles s.heap.next (s.handles s.heap.next + 1) }
    else none
  | .addRef a =>
    if 0 < s.handles a then
      some { s with
        heap := s.heap.addRef a 1, handles := Function.update s.handles a (s.handles a + 1) }
    else none
  | .dropRef a =>
    if 0 < s.handles a then
      some { s with
        heap := s.heap.dropRef a 1, handles := Function.update s.handles a (s.handles a - 1) }
    else none
  | .emplace a =>
    if 0 < s.handles a ∧ (s.heap.cell a).mKind = .kConcrete ∧ s.heap.isAvailable a = false then
      some (s.spawn (s.heap.notifyAvailable a .kConcrete))
    else none
  | .setError a ty out =>
    if 0 < s.handles a ∧ s.heap.isAvailable a = false ∧ s.fwd a = none then
      some (s.setError a ty out)
    else none
  | .forwardTo i v =>
    if 0 < s.handles i ∧ (s.heap.cell i).mKind = .kIndirect ∧ s.fwd i = none ∧
        0 < s.handles v ∧ i ≠ v then
      some ({ s with
        fwd := Function.update s.fwd i (some v)
        handles := Function.update s.handles v (s.handles v - 1) }.spawn (s.heap.forwardTo i v))
    else none
  | .run t => s.run t

/-- All runs from the empty heap. -/
def sys (V E : Type) : Sys (St V E) (Label V E) := Sys.ofFun start step

/-- All acts that the threads still have to do. -/
def St.acts (s : St V E) : List Act := s.threads.flatMap id

/-- No call is in progress. -/
def St.Quiescent (s : St V E) : Prop := ∀ t ∈ s.threads, t = []

/-- The chain of `ForwardTo` calls from `i` ends in the concrete value `c`. -/
inductive ChainEnd (h : Heap V E Empty) (fwd : Addr → Option Addr) : Addr → Addr → Prop
  | concrete {c : Addr} : c < h.next → (h.cell c).mKind = .kConcrete → ChainEnd h fwd c c
  | forward {i v c : Addr} : fwd i = some v → ChainEnd h fwd v c → ChainEnd h fwd i c

/-! ## References -/

/-- The clients' closures hold no references: there are none. -/
def noClient : Empty → Addr → Nat := fun c => nomatch c

/-- The references of an act. -/
def Act.refs : Act → Addr → Nat
  | .forwardTo i v => Pi.single i 1 + Pi.single v 1
  | .dropRef a => Pi.single a 1

@[simp] theorem Act.refs_ofWaiter (w : Waiter Empty) :
    (Act.ofWaiter w).refs = w.refs noClient := by
  match w with
  | .forward i v => rfl

theorem Act.map_refs_ofWaiter (ws : List (Waiter Empty)) :
    ((ws.map Act.ofWaiter).map Act.refs).sum = (ws.map (Waiter.refs noClient)).sum := by
  simp [List.map_map, Function.comp_def]

/-- The value that an act is going to forward. -/
def Act.token : Act → Addr → Nat
  | .forwardTo i _ => Pi.single i 1
  | .dropRef _ => 0

@[simp] theorem Act.token_forwardTo (i v : Addr) : (Act.forwardTo i v).token = Pi.single i 1 := rfl

@[simp] theorem Act.token_dropRef (a : Addr) : (Act.dropRef a).token = 0 := rfl

/-- How many pending closures forward each value. -/
def tokens (h : Heap V E Empty) (acts : List Act) : Addr → Nat :=
  Heap.waiting (fun w => (Act.ofWaiter w).token) h + (acts.map Act.token).sum

/-! ## The invariant -/

/-- What the pending closures have to do with the calls made: each waits for its target, a value has
exactly one of them from its `ForwardTo` until it is available, and a value points at the end of its
chain. -/
structure Links (h : Heap V E Empty) (fwd : Addr → Option Addr) (acts : List Act) : Prop where
  kind : ∀ i v, fwd i = some v → (h.cell i).mKind = .kIndirect ∧ i < h.next ∧ v < h.next
  queued : ∀ i v, .forwardTo i v ∈ acts → fwd i = some v
  waits : ∀ a i v, .forward i v ∈ (h.cell a).waiters → a = v ∧ fwd i = some v
  once : ∀ i, tokens h acts i = if (fwd i).isSome ∧ h.isAvailable i = false then 1 else 0
  points : ∀ i c, (h.cell i).mValue = some c → ChainEnd h fwd i c
  ends : ∀ i, (h.cell i).mKind = .kIndirect → h.isAvailable i = true →
    ∃ c, ChainEnd h fwd i c ∧ h.isAvailable c = true

/-- The counts are those of the handles and of the stacks, and the links are where `fwd` says. -/
structure Inv (s : St V E) : Prop where
  ok : s.heap.Ok noClient (s.handles + (s.acts.map Act.refs).sum)
  links : Links s.heap s.fwd s.acts

section Links

variable {h h' : Heap V E Empty} {fwd fwd' : Addr → Option Addr} {acts acts' : List Act}
  {i v a c : Addr}

/-- Later heaps and later calls keep the chains. -/
theorem ChainEnd.mono (hn : h.next ≤ h'.next)
    (hk : ∀ b, b < h.next → (h'.cell b).mKind = (h.cell b).mKind)
    (hf : ∀ i v, fwd i = some v → fwd' i = some v) (hc : ChainEnd h fwd i c) :
    ChainEnd h' fwd' i c := by
  induction hc with
  | concrete hlt hkind => exact .concrete (Nat.lt_of_lt_of_le hlt hn) ((hk _ hlt).trans hkind)
  | forward hfwd _ ih => exact .forward (hf _ _ hfwd) ih

/-- The chain of an indirect value starts with its `ForwardTo`. -/
theorem ChainEnd.indirect (hc : ChainEnd h fwd i c) (hi : (h.cell i).mKind = .kIndirect) :
    ∃ v, fwd i = some v ∧ ChainEnd h fwd v c := by
  cases hc with
  | concrete _ hk =>
    rw [hi] at hk
    cases hk
  | forward hf hv => exact ⟨_, hf, hv⟩

theorem Links.perm (hl : Links h fwd acts) (hp : acts.Perm acts') : Links h fwd acts' where
  kind := hl.kind
  queued i v hm := hl.queued i v (hp.mem_iff.mpr hm)
  waits := hl.waits
  once i := by
    rw [← hl.once i, tokens, tokens, (hp.map Act.token).sum_eq]
  points := hl.points
  ends := hl.ends

/-- Drops do not forward anything. -/
theorem Links.dropRef_iff : Links h fwd (.dropRef a :: acts) ↔ Links h fwd acts := by
  have ht : tokens h (.dropRef a :: acts) = tokens h acts := by
    simp [tokens]
  constructor
  · intro hl
    exact ⟨hl.kind, fun i v hm => hl.queued i v (List.mem_cons_of_mem _ hm), hl.waits,
      fun i => ht ▸ hl.once i, hl.points, hl.ends⟩
  · intro hl
    refine ⟨hl.kind, fun i v hm => ?_, hl.waits, fun i => ht ▸ hl.once i, hl.points, hl.ends⟩
    rcases List.mem_cons.mp hm with he | hm
    · cases he
    · exact hl.queued i v hm

/-- A change of the counts only; pointers may be cleared. -/
theorem Links.frame (hl : Links h fwd acts) (hn : h'.next = h.next)
    (hk : ∀ b, (h'.cell b).mKind = (h.cell b).mKind)
    (hs : ∀ b, (h'.cell b).state = (h.cell b).state)
    (hw : ∀ b, (h'.cell b).waiters = (h.cell b).waiters)
    (hm : ∀ b t, (h'.cell b).mValue = some t → (h.cell b).mValue = some t) :
    Links h' fwd acts := by
  have hav : ∀ b, h'.isAvailable b = h.isAvailable b := fun b => by
    rw [Heap.isAvailable, Heap.isAvailable, hs]
  have hchain : ∀ {j d}, ChainEnd h fwd j d → ChainEnd h' fwd j d :=
    ChainEnd.mono (Nat.le_of_eq hn.symm) (fun b _ => hk b) fun _ _ hf => hf
  have htok : tokens h' acts = tokens h acts := by
    unfold tokens Heap.waiting
    rw [hn]
    simp only [hw]
  refine ⟨fun i v hf => ?_, hl.queued, fun b i v hb => ?_, fun i => ?_, fun i c hc => ?_,
    fun i hi ha => ?_⟩
  · rw [hk, hn]
    exact hl.kind i v hf
  · rw [hw] at hb
    exact hl.waits b i v hb
  · rw [htok, hav]
    exact hl.once i
  · exact hchain (hl.points i c (hm i c hc))
  · rw [hk] at hi
    rw [hav] at ha
    obtain ⟨c, hc, hca⟩ := hl.ends i hi ha
    exact ⟨c, hchain hc, (hav c).trans hca⟩

theorem Links.addRef (hl : Links h fwd acts) (k : Nat) : Links (h.addRef a k) fwd acts := by
  refine hl.frame rfl ?_ ?_ ?_ ?_ <;> simp

theorem Links.dropRef (hl : Links h fwd acts) (k : Nat) : Links (h.dropRef a k) fwd acts := by
  refine hl.frame (by simp) ?_ ?_ ?_ fun b t hm => Heap.dropRef_mValue hm <;> simp

/-- A new value is not forwarded yet. -/
theorem Links.alloc (hl : Links h fwd acts) {d : Cell V E Empty}
    (hd : d.waiters = []) (hm : d.mValue = none)
    (hk : d.mKind = .kIndirect → d.state.isAvailable = false) :
    Links (h.alloc d) fwd acts := by
  have hcell : ∀ b, (h.alloc d).cell b = if b = h.next then d else h.cell b := fun b => by
    simp only [Heap.alloc, Function.update_apply]
  have hlt : ∀ b, b < h.next → (h.alloc d).cell b = h.cell b := fun b hb => by
    rw [hcell, if_neg (Nat.ne_of_lt hb)]
  have hchain : ∀ {j e}, ChainEnd h fwd j e → ChainEnd (h.alloc d) fwd j e :=
    ChainEnd.mono (Nat.le_succ _) (fun b hb => by rw [hlt b hb]) fun _ _ hf => hf
  have hend : ∀ {j e}, ChainEnd h fwd j e → e < h.next := by
    intro j e he
    induction he with
    | concrete h1 _ => exact h1
    | forward _ _ ih => exact ih
  refine ⟨fun i v hf => ?_, hl.queued, fun b i v hb => ?_, fun i => ?_, fun i c hc => ?_,
    fun i hi ha => ?_⟩
  · obtain ⟨h1, h2, h3⟩ := hl.kind i v hf
    rw [hlt i h2]
    exact ⟨h1, Nat.lt_succ_of_lt h2, Nat.lt_succ_of_lt h3⟩
  · rw [hcell] at hb
    split at hb
    · rw [hd] at hb; cases hb
    · exact hl.waits b i v hb
  · rw [tokens, Heap.waiting_alloc _ d hd]
    refine (hl.once i).trans ?_
    by_cases hi : i < h.next
    · rw [Heap.isAvailable, Heap.isAvailable, hlt i hi]
    · have hno : fwd i = none := by
        cases hf : fwd i with
        | none => rfl
        | some v => exact absurd (hl.kind i v hf).2.1 hi
      simp [hno]
  · rw [hcell] at hc
    split at hc
    · rw [hm] at hc; cases hc
    · exact hchain (hl.points i c hc)
  · rw [hcell] at hi
    rw [Heap.isAvailable, hcell] at ha
    split at hi
    · rename_i he
      rw [if_pos he, hk hi] at ha
      cases ha
    · rename_i he
      rw [if_neg he] at ha
      obtain ⟨c, hc, hca⟩ := hl.ends i hi ha
      exact ⟨c, hchain hc, by rw [Heap.isAvailable, hlt c (hend hc)]; exact hca⟩

/-- An indirect value on which `ForwardTo` was not called is unavailable. -/
theorem Links.unavailable (hl : Links h fwd acts) (hi : (h.cell i).mKind = .kIndirect)
    (hf : fwd i = none) : h.isAvailable i = false := by
  cases ha : h.isAvailable i with
  | false => rfl
  | true =>
    obtain ⟨c, hc, -⟩ := hl.ends i hi ha
    obtain ⟨v, hv, -⟩ := hc.indirect hi
    rw [hf] at hv
    cases hv

/-- A call of `ForwardTo` is an act that is going to run. -/
theorem Links.call (hl : Links h fwd acts) (hi : (h.cell i).mKind = .kIndirect)
    (hf : fwd i = none) (hin : i < h.next) (hvn : v < h.next) :
    Links h (Function.update fwd i (some v)) (.forwardTo i v :: acts) := by
  have hmono : ∀ j u, fwd j = some u → Function.update fwd i (some v) j = some u := by
    intro j u hj
    have hne : j ≠ i := fun he => by rw [he, hf] at hj; cases hj
    rw [Function.update_of_ne hne]
    exact hj
  have hchain : ∀ {j e}, ChainEnd h fwd j e → ChainEnd h (Function.update fwd i (some v)) j e :=
    ChainEnd.mono (Nat.le_refl _) (fun _ _ => rfl) hmono
  refine ⟨fun j u hj => ?_, fun j u hm => ?_, fun b j u hb => ?_, fun j => ?_, fun j c hc => ?_,
    fun j hj ha => ?_⟩
  · by_cases hji : j = i
    · subst hji
      rw [Function.update_self] at hj
      cases hj
      exact ⟨hi, hin, hvn⟩
    · rw [Function.update_of_ne hji] at hj
      exact hl.kind j u hj
  · rcases List.mem_cons.mp hm with he | hm
    · cases he
      exact Function.update_self ..
    · exact hmono j u (hl.queued j u hm)
  · obtain ⟨h1, h2⟩ := hl.waits b j u hb
    exact ⟨h1, hmono j u h2⟩
  · have hj := hl.once j
    have htok : tokens h (.forwardTo i v :: acts) = tokens h acts + Pi.single i 1 := by
      simp only [tokens, List.map_cons, List.sum_cons, Act.token_forwardTo]
      abel
    rw [htok, Pi.add_apply, hj]
    by_cases hji : j = i
    · subst hji
      simp [hf, hl.unavailable hi hf]
    · simp [Function.update_of_ne hji, Pi.single_eq_of_ne hji]
  · exact hchain (hl.points j c hc)
  · obtain ⟨c, hc, hca⟩ := hl.ends j hj ha
    exact ⟨c, hchain hc, hca⟩

/-- A value that an act is going to forward is unavailable. -/
theorem Links.pending (hl : Links h fwd (.forwardTo i v :: acts)) :
    fwd i = some v ∧ (h.cell i).mKind = .kIndirect ∧ h.isAvailable i = false := by
  have hf := hl.queued i v (by simp)
  refine ⟨hf, (hl.kind i v hf).1, ?_⟩
  have ho := hl.once i
  simp only [tokens, List.map_cons, List.sum_cons, Act.token_forwardTo, Pi.add_apply,
    Pi.single_eq_same] at ho
  cases ha : h.isAvailable i with
  | false => rfl
  | true =>
    simp only [ha, Bool.true_eq_false, and_false, ↓reduceIte] at ho
    omega

/-- The weights of the closures that a call releases. -/
theorem tokens_released (ws : List (Waiter Empty)) (acts : List Act) :
    ((ws.map Act.ofWaiter ++ acts).map Act.token).sum =
      (ws.map fun w => (Act.ofWaiter w).token).sum + (acts.map Act.token).sum := by
  rw [List.map_append, List.sum_append, List.map_map]
  rfl

/-- A closure of `ForwardTo`, among the acts that a call releases. -/
theorem mem_released {ws : List (Waiter Empty)} (hm : .forwardTo i v ∈ ws.map Act.ofWaiter) :
    .forward i v ∈ ws := by
  obtain ⟨w, hw, he⟩ := List.mem_map.mp hm
  match w with
  | .forward j u =>
    cases he
    exact hw

/-- `ForwardTo` runs: the value waits for its target, or points at the end of the target's chain. -/
theorem Links.forwardTo {X : Addr → Nat} (hl : Links h fwd (.forwardTo i v :: acts))
    (hk : h.Ok noClient (X + Pi.single v 1)) :
    Links (h.forwardTo i v).1 fwd ((h.forwardTo i v).2.map Act.ofWaiter ++ acts) := by
  obtain ⟨hf, hi, hun⟩ := hl.pending
  obtain ⟨-, hin, hvn⟩ := hl.kind i v hf
  have hchain : ∀ {j e}, ChainEnd h fwd j e → ChainEnd (h.forwardTo i v).1 fwd j e :=
    ChainEnd.mono (by simp) (fun b _ => by simp) fun _ _ h => h
  -- where the target's chain ends, once the target is available
  have htarget : h.isAvailable v = true → ChainEnd h fwd v (h.shorten v).2 ∧
      h.isAvailable (h.shorten v).2 = true := by
    intro hv
    obtain ⟨-, hc, hst, -⟩ := hk.shorten hv
    rw [Heap.shorten_mKind] at hc
    rw [Heap.shorten_state] at hst
    refine ⟨?_, by rw [Heap.isAvailable, hst]; exact hv⟩
    rcases h.shorten_target v with hm | he
    · exact hl.points v _ hm
    · rw [he] at hc ⊢
      exact .concrete hvn hc
  have hav : ∀ b, (h.forwardTo i v).1.isAvailable b =
      (h.isAvailable b || (decide (b = i) && h.isAvailable v)) := by
    intro b
    rw [Heap.isAvailable, Heap.forwardTo_state]
    split
    · rename_i hc
      obtain ⟨rfl, hv⟩ := hc
      rw [hv]
      simpa [Heap.isAvailable] using hv
    · rename_i hc
      rw [Heap.isAvailable]
      by_cases hb : b = i
      · have hv : h.isAvailable v = false := by simpa [hb] using hc
        simp [hv]
      · simp [hb]
  refine ⟨fun j u hj => ?_, fun j u hm => ?_, fun b j u hb => ?_, fun j => ?_, fun j c hc => ?_,
    fun j hj ha => ?_⟩
  · rw [Heap.forwardTo_mKind, Heap.forwardTo_next]
    exact hl.kind j u hj
  · rcases List.mem_append.mp hm with hr | hm
    · exact (hl.waits i j u (Heap.mem_released_forwardTo (mem_released hr)).1).2
    · exact hl.queued j u (List.mem_cons_of_mem _ hm)
  · rcases Heap.mem_waiters_forwardTo hb with hb | ⟨he, hbv, -⟩
    · exact hl.waits b j u hb
    · cases he
      exact ⟨hbv, hf⟩
  · have hw := congrFun (Heap.waiting_forwardTo (fun w => (Act.ofWaiter w).token) hin hvn) j
    have ho := hl.once j
    rw [tokens, tokens_released, Pi.add_apply, Pi.add_apply, hav j]
    simp only [tokens, List.map_cons, List.sum_cons, Act.token_forwardTo, Pi.add_apply] at ho
    rw [Pi.add_apply, Pi.add_apply] at hw
    by_cases hv : h.isAvailable v = true
    · rw [if_pos hv, Pi.zero_apply] at hw
      by_cases hji : j = i
      · subst hji
        rw [Pi.single_eq_same] at ho
        simp only [hf, hun, Option.isSome_some, and_self, ↓reduceIte] at ho
        simp only [hv, hun, decide_true, Bool.and_self, Bool.or_true, Bool.true_eq_false,
          and_false, ↓reduceIte]
        omega
      · rw [Pi.single_eq_of_ne hji] at ho
        simp only [hji, decide_false, Bool.false_and, Bool.or_false]
        omega
    · have hv' : h.isAvailable v = false := by simpa using hv
      rw [if_neg hv] at hw
      simp only [hv', Bool.and_false, Bool.or_false]
      have he : (Act.ofWaiter (.forward i v)).token = Pi.single i 1 := rfl
      rw [he] at hw
      omega
  · rcases Heap.forwardTo_mValue hc with ⟨rfl, hv, rfl⟩ | hm
    · exact hchain (.forward hf (htarget hv).1)
    · exact hchain (hl.points j c hm)
  · rw [Heap.forwardTo_mKind] at hj
    rw [hav] at ha
    by_cases hja : h.isAvailable j = true
    · obtain ⟨c, hc, hca⟩ := hl.ends j hj hja
      exact ⟨c, hchain hc, Heap.forwardTo_isAvailable h i v c hca⟩
    · simp only [hja, Bool.false_or, Bool.and_eq_true, decide_eq_true_eq] at ha
      obtain ⟨rfl, hv⟩ := ha
      exact ⟨_, hchain (.forward hf (htarget hv).1),
        Heap.forwardTo_isAvailable h j v _ (htarget hv).2⟩

/-- A concrete value is resolved. -/
theorem Links.notifyAvailable (hl : Links h fwd acts) (ha : a < h.next) {st : State}
    (hc : (h.cell a).mKind = .kConcrete) (hst : st.isAvailable = true) :
    Links (h.notifyAvailable a st).1 fwd ((h.notifyAvailable a st).2.map Act.ofWaiter ++ acts) := by
  have hcell : ∀ b, (h.notifyAvailable a st).1.cell b =
      if b = a then { h.cell a with state := st, waiters := [] } else h.cell b :=
    Heap.notifyAvailable_cell st
  have hkind : ∀ b, ((h.notifyAvailable a st).1.cell b).mKind = (h.cell b).mKind := by
    intro b
    rw [hcell]
    split
    · rename_i hb; rw [hb]
    · rfl
  have hmono : ∀ b, h.isAvailable b = true → (h.notifyAvailable a st).1.isAvailable b = true := by
    intro b hb
    rw [Heap.isAvailable, hcell]
    split
    · exact hst
    · exact hb
  have hchain : ∀ {j e}, ChainEnd h fwd j e → ChainEnd (h.notifyAvailable a st).1 fwd j e :=
    ChainEnd.mono (by simp) (fun b _ => hkind b) fun _ _ h => h
  -- the resolved value is not forwarded, so nothing changes for those that are
  have hne : ∀ j, (h.cell j).mKind = .kIndirect → j ≠ a := by
    intro j hj he
    rw [he, hc] at hj
    cases hj
  refine ⟨fun j u hj => ?_, fun j u hm => ?_, fun b j u hb => ?_, fun j => ?_, fun j c hm => ?_,
    fun j hj hja => ?_⟩
  · rw [hkind, Heap.notifyAvailable_next]
    exact hl.kind j u hj
  · rcases List.mem_append.mp hm with hr | hm
    · exact (hl.waits a j u (mem_released hr)).2
    · exact hl.queued j u hm
  · rw [hcell] at hb
    split at hb
    · cases hb
    · exact hl.waits b j u hb
  · have hw := congrFun (Heap.waiting_notifyAvailable (fun w => (Act.ofWaiter w).token) st ha) j
    have ho := hl.once j
    rw [tokens, tokens_released, Pi.add_apply, Pi.add_apply]
    rw [tokens, Pi.add_apply] at ho
    rw [Pi.add_apply] at hw
    have hiff : ((fwd j).isSome ∧ (h.notifyAvailable a st).1.isAvailable j = false) ↔
        ((fwd j).isSome ∧ h.isAvailable j = false) := by
      refine and_congr_right fun hs => ?_
      obtain ⟨u, hu⟩ := Option.isSome_iff_exists.mp hs
      rw [Heap.isAvailable, hcell, if_neg (hne j (hl.kind j u hu).1)]
      rfl
    simp only [hiff]
    omega
  · rw [hcell] at hm
    split at hm
    · rename_i hb
      exact hchain (hl.points j c (by rw [hb]; exact hm))
    · exact hchain (hl.points j c hm)
  · rw [hkind] at hj
    rw [Heap.isAvailable, hcell, if_neg (hne j hj)] at hja
    obtain ⟨c, hc, hca⟩ := hl.ends j hj hja
    exact ⟨c, hchain hc, hmono c hca⟩

/-- A chain has one end. -/
theorem Links.chainEnd_unique (hl : Links h fwd acts) {d : Addr} (hc : ChainEnd h fwd i c)
    (hd : ChainEnd h fwd i d) : c = d := by
  have hnot : ∀ j u, (h.cell j).mKind = .kConcrete → fwd j ≠ some u := by
    intro j u hk hf
    rw [(hl.kind j u hf).1] at hk
    cases hk
  induction hc with
  | concrete _ hk =>
    cases hd with
    | concrete _ _ => rfl
    | forward hf _ => exact absurd hf (hnot _ _ hk)
  | forward hf _ ih =>
    cases hd with
    | concrete _ hk => exact absurd hf (hnot _ _ hk)
    | forward hf' hd =>
      rw [hf] at hf'
      cases hf'
      exact ih hd

end Links

/-! ## Steps and runs -/

section Steps

variable {s s' : St V E} {a i v : Addr}

theorem update_add_one (f : Addr → Nat) (a : Addr) :
    Function.update f a (f a + 1) = f + Pi.single a 1 := by
  funext x
  rw [Function.update_apply, Pi.add_apply, Pi.single_apply]
  split
  · rename_i hx; rw [hx]
  · rfl

theorem update_sub_one {f : Addr → Nat} {a : Addr} (ha : 0 < f a) :
    Function.update f a (f a - 1) + Pi.single a 1 = f := by
  funext x
  rw [Pi.add_apply, Function.update_apply, Pi.single_apply]
  split
  · rename_i hx; rw [hx]; omega
  · rfl

theorem acts_spawn (r : Heap V E Empty × List (Waiter Empty)) :
    (s.spawn r).acts = r.2.map Act.ofWaiter ++ s.acts := by
  simp [St.acts, St.spawn]

/-- A call whose closures go to a new thread. -/
theorem Inv.spawn {r : Heap V E Empty × List (Waiter Empty)}
    (hk : r.1.Ok noClient (s.handles + (s.acts.map Act.refs).sum +
      (r.2.map (Waiter.refs noClient)).sum))
    (hl : Links r.1 s.fwd (r.2.map Act.ofWaiter ++ s.acts)) : Inv (s.spawn r) where
  ok := by
    refine hk.congr ?_
    rw [acts_spawn, List.map_append, List.sum_append, Act.map_refs_ofWaiter]
    show _ = s.handles + _
    abel
  links := acts_spawn r ▸ hl

theorem start_inv : Inv (start : St V E) where
  ok := by
    refine ⟨⟨fun _ _ => rfl, fun i t hm => ?_, fun i hi _ _ => ?_, fun _ _ => rfl⟩, fun x => ?_⟩
    · cases hm
    · cases hi
    · simp [start, Heap.waiting, Heap.pointing, Heap.refs, St.acts]
  links := by
    refine ⟨fun i v hf => ?_, fun i v hm => ?_, fun a i v hm => ?_, fun i => ?_, fun i c hm => ?_,
      fun i hi _ => ?_⟩
    · cases hf
    · cases hm
    · cases hm
    · simp [start, tokens, Heap.waiting, St.acts]
    · cases hm
    · cases hi

theorem Inv.make (hi : Inv s) {d : Cell V E Empty} (hd : d.waiters = []) (hm : d.mValue = none)
    (hr : d.mRefCount = 1) (hk : d.mKind = .kIndirect → d.state.isAvailable = false) :
    Inv { s with
      heap := s.heap.alloc d
      handles := Function.update s.handles s.heap.next (s.handles s.heap.next + 1) } where
  ok := by
    refine (hi.ok.alloc hm hd hk).congr ?_
    rw [hr, update_add_one]
    exact add_right_comm _ _ _
  links := hi.links.alloc hd hm hk

theorem Inv.addRef (hi : Inv s) (ha : 0 < s.handles a) :
    Inv { s with
      heap := s.heap.addRef a 1, handles := Function.update s.handles a (s.handles a + 1) } where
  ok := by
    refine (hi.ok.addRef (hi.ok.pos (Nat.lt_of_lt_of_le ha (Nat.le_add_right _ _))) 1).congr ?_
    rw [update_add_one]
    exact add_right_comm _ _ _
  links := hi.links.addRef 1

theorem Inv.dropRef (hi : Inv s) (ha : 0 < s.handles a) :
    Inv { s with
      heap := s.heap.dropRef a 1, handles := Function.update s.handles a (s.handles a - 1) } where
  ok := by
    refine Heap.Ok.dropRef (hi.ok.congr ?_)
      (hi.ok.pos (Nat.lt_of_lt_of_le ha (Nat.le_add_right _ _)))
    show _ = _ + (s.acts.map Act.refs).sum + _
    rw [add_right_comm, update_sub_one ha]
  links := hi.links.dropRef 1

theorem Inv.held (hi : Inv s) (ha : 0 < s.handles a) : 0 < s.heap.refs a :=
  hi.ok.pos (Nat.lt_of_lt_of_le ha (Nat.le_add_right _ _))

theorem Inv.notifyAvailable (hi : Inv s) (ha : 0 < s.handles a)
    (hc : (s.heap.cell a).mKind = .kConcrete) (hun : s.heap.isAvailable a = false) {st : State}
    (hst : st.isAvailable = true) : Inv (s.spawn (s.heap.notifyAvailable a st)) := by
  have hlt := hi.ok.wf.lt_next (hi.held ha)
  exact Inv.spawn (hi.ok.notifyAvailable hlt hc hun hst) (hi.links.notifyAvailable hlt hc hst)

/-- A call of `ForwardTo` that hands over a reference which the state no longer counts. -/
theorem Inv.forwardTo (s : St V E) {h : Heap V E Empty} (fwd : Addr → Option Addr)
    (hk : h.Ok noClient (s.handles + (s.acts.map Act.refs).sum + Pi.single v 1))
    (hl : Links h fwd s.acts) (hi : (h.cell i).mKind = .kIndirect) (hf : fwd i = none)
    (hpos : 0 < h.refs i) :
    Inv ({ s with fwd := Function.update fwd i (some v) }.spawn (h.forwardTo i v)) := by
  have hvn : v < h.next := hk.wf.lt_next (hk.pos (by simp))
  have hcall := hl.call hi hf (hk.wf.lt_next hpos) hvn
  exact Inv.spawn (hk.forwardTo hi (hl.unavailable hi hf) hpos) (hcall.forwardTo hk)

/-- `ForwardTo` by a caller that holds both values; the target may also be the value itself. -/
theorem Inv.called (hi : Inv s) (hk : (s.heap.cell i).mKind = .kIndirect) (hf : s.fwd i = none)
    (hpos : 0 < s.heap.refs i) (hv : 0 < s.handles v) :
    Inv ({ s with
      fwd := Function.update s.fwd i (some v)
      handles := Function.update s.handles v (s.handles v - 1) }.spawn (s.heap.forwardTo i v)) := by
  refine Inv.forwardTo { s with
    handles := Function.update s.handles v (s.handles v - 1) } s.fwd ?_ hi.links hk hf hpos
  refine hi.ok.congr ?_
  rw [add_right_comm]
  exact congrArg (· + (s.acts.map Act.refs).sum) (update_sub_one hv).symm

theorem Inv.setError (hi : Inv s) (ha : 0 < s.handles a) (hun : s.heap.isAvailable a = false)
    (hf : s.fwd a = none) (ty : Nat) (out : Option (Except E V)) : Inv (s.setError a ty out) := by
  unfold St.setError
  split
  · rename_i hc
    exact hi.notifyAvailable ha hc hun rfl
  · rename_i hk
    have hlt := hi.ok.wf.lt_next (hi.held ha)
    have hcell : ∀ d : Cell V E Empty, (s.heap.alloc d).cell a = s.heap.cell a := fun d => by
      simp only [Heap.alloc]
      exact Function.update_of_ne (Nat.ne_of_lt hlt) ..
    refine Inv.forwardTo s s.fwd (hi.ok.alloc rfl rfl fun hc => by cases hc)
      (hi.links.alloc rfl rfl fun hc => by cases hc) ?_ hf ?_
    · rw [hcell]; exact hk
    · rw [Heap.refs, hcell]; exact hi.held ha

/-- One act of a thread. -/
theorem Inv.ran (hi : Inv s) {t : Nat} (hs : s.run t = some s') : Inv s' := by
  unfold St.run at hs
  split at hs
  · rename_i j u rest ht
    cases hs
    obtain ⟨l, hl, hl'⟩ := Replaced.flatMap_set (f := id) ht
      (Replaced.front [Act.forwardTo j u]
        ((s.heap.forwardTo j u).2.map Act.ofWaiter ++ [.dropRef j]) rest)
    have hlinks := hi.links.perm hl
    have hk := hi.ok
    have hsum : (s.acts.map Act.refs).sum = (l.map Act.refs).sum + Pi.single j 1 + Pi.single u 1 := by
      rw [St.acts, (hl.map Act.refs).sum_eq]
      simp only [List.singleton_append, List.map_cons, List.sum_cons, Act.refs]
      abel
    rw [hsum, ← add_assoc] at hk
    obtain ⟨-, hkind, hun⟩ := hlinks.pending
    have hpos : 0 < s.heap.refs j := hk.pos (by simp)
    have hperm : ((s.heap.forwardTo j u).2.map Act.ofWaiter ++ .dropRef j :: l).Perm
        ((s.threads.set t ((s.heap.forwardTo j u).2.map Act.ofWaiter ++ .dropRef j :: rest)).flatMap
          id) := by
      simpa using hl'.symm
    refine ⟨(hk.forwardTo hkind hun hpos).congr ?_, Links.perm ?_ hperm⟩
    · show _ = s.handles + _
      rw [St.acts, ← (hperm.map Act.refs).sum_eq, List.map_append, List.sum_append,
        Act.map_refs_ofWaiter]
      simp only [List.map_cons, List.sum_cons, Act.refs]
      abel
    · exact (Links.dropRef_iff.mpr (hlinks.forwardTo hk)).perm List.perm_middle.symm
  · rename_i b rest ht
    cases hs
    obtain ⟨l, hl, hl'⟩ := Replaced.flatMap_set (f := id) ht
      (Replaced.front [Act.dropRef b] [] rest)
    have hk := hi.ok
    rw [St.acts, (hl.map Act.refs).sum_eq] at hk
    have hk' : s.heap.Ok noClient (s.handles + (l.map Act.refs).sum + Pi.single b 1) := by
      refine hk.congr ?_
      simp only [List.singleton_append, List.map_cons, List.sum_cons, Act.refs]
      abel
    refine ⟨(hk'.dropRef (hk'.pos (by simp))).congr ?_,
      ((Links.dropRef_iff.mp (hi.links.perm hl)).dropRef 1).perm hl'.symm⟩
    rw [List.nil_append, List.nil_append] at hl'
    exact congrArg (s.handles + ·) (hl'.map Act.refs).sum_eq.symm
  · cases hs

theorem Inv.preserved (hi : Inv s) {l : Label V E} (hs : step s l = some s') : Inv s' := by
  cases l with
  | make kind st ty out =>
    simp only [step] at hs
    split at hs <;> cases hs
    rename_i hst
    exact hi.make rfl rfl rfl fun hk => by rw [hst hk]; rfl
  | addRef b =>
    simp only [step] at hs
    split at hs <;> cases hs
    rename_i hb
    exact hi.addRef hb
  | dropRef b =>
    simp only [step] at hs
    split at hs <;> cases hs
    rename_i hb
    exact hi.dropRef hb
  | emplace b =>
    simp only [step] at hs
    split at hs <;> cases hs
    rename_i hb
    obtain ⟨hb, hc, hun⟩ := hb
    exact hi.notifyAvailable hb hc hun rfl
  | setError b ty out =>
    simp only [step] at hs
    split at hs <;> cases hs
    rename_i hb
    obtain ⟨hb, hun, hf⟩ := hb
    exact hi.setError hb hun hf ty out
  | forwardTo j u =>
    simp only [step] at hs
    split at hs <;> cases hs
    rename_i hg
    obtain ⟨hj, hkind, hf, hu, -⟩ := hg
    exact hi.called hkind hf (hi.held hj) hu
  | run t => exact hi.ran hs

theorem Inv.ran_grows (hi : Inv s) {t : Nat} (hs : s.run t = some s') :
    Heap.Grows s.heap s'.heap := by
  unfold St.run at hs
  split at hs
  · rename_i j u rest ht
    cases hs
    obtain ⟨l, hl, -⟩ := Replaced.flatMap_set (f := id) ht
      (Replaced.front [Act.forwardTo j u] [] rest)
    exact .forwardTo (hi.links.perm hl).pending.2.2
  · cases hs
    exact .dropRef _ _ _
  · cases hs

/-- A step only adds values, and keeps what is available. -/
theorem Inv.grows (hi : Inv s) {l : Label V E} (hs : step s l = some s') : Heap.Grows s.heap
    s'.heap := by
  cases l with
  | make kind st ty out =>
    simp only [step] at hs
    split at hs <;> cases hs
    exact .alloc _ _
  | addRef b =>
    simp only [step] at hs
    split at hs <;> cases hs
    exact .addRef _ _ _
  | dropRef b =>
    simp only [step] at hs
    split at hs <;> cases hs
    exact .dropRef _ _ _
  | emplace b =>
    simp only [step] at hs
    split at hs <;> cases hs
    rename_i hb
    exact .notifyAvailable hb.2.2
  | setError b ty out =>
    simp only [step] at hs
    split at hs <;> cases hs
    rename_i hb
    obtain ⟨hb, hun, hf⟩ := hb
    unfold St.setError
    split
    · exact .notifyAvailable hun
    · have hlt := hi.ok.wf.lt_next (hi.held hb)
      have hun' :
          (s.heap.alloc ⟨.kConcrete, 1, ty, .kError, [], none, out⟩).isAvailable b = false := by
        rw [Heap.isAvailable, Heap.alloc_cell, if_neg (Nat.ne_of_lt hlt)]
        exact hun
      exact (Heap.Grows.alloc _ _).trans (.forwardTo hun')
  | forwardTo j u =>
    simp only [step] at hs
    split at hs <;> cases hs
    rename_i hg
    exact .forwardTo (hi.links.unavailable hg.2.1 hg.2.2.1)
  | run t => exact hi.ran_grows hs

theorem reach_inv (hs : (sys V E).Reach Any s) : Inv s :=
  hs.invariant (fun _ h0 => h0 ▸ start_inv) fun _ _ _ hi _ hn => hi.preserved hn

end Steps

/-! ## The result -/

section Result

variable {s : St V E} {a i c : Addr}

theorem St.Quiescent.acts (hq : s.Quiescent) : s.acts = [] := by
  rw [St.acts, List.flatMap_eq_nil_iff]
  exact hq

/-- A value that waits to be forwarded, when no thread is busy: its closure waits for its target. -/
theorem Inv.waits_of_quiescent (hi : Inv s) (hq : s.Quiescent) {v : Addr} (hf : s.fwd i = some v)
    (hun : s.heap.isAvailable i = false) : .forward i v ∈ (s.heap.cell v).waiters := by
  have ho := hi.links.once i
  simp only [tokens, hq.acts, hf, hun, List.map_nil, List.sum_nil, add_zero,
    Option.isSome_some, and_self, ↓reduceIte] at ho
  obtain ⟨b, -, w, hw, hpos⟩ := Heap.exists_of_waiting_pos _ i (by rw [ho]; exact Nat.one_pos)
  match w with
  | .forward j u =>
    obtain ⟨rfl, hu⟩ := hi.links.waits b j u hw
    by_cases hji : i = j
    · subst hji
      rw [hf] at hu
      cases hu
      exact hw
    · simp [Act.ofWaiter, Pi.single_eq_of_ne hji] at hpos

/-- Along the chain: a value whose chain ends in an available value is available. -/
theorem Inv.available_of_chainEnd (hi : Inv s) (hq : s.Quiescent)
    (hc : ChainEnd s.heap s.fwd i c) (ha : s.heap.isAvailable c = true) :
    s.heap.isAvailable i = true := by
  induction hc with
  | concrete _ _ => exact ha
  | @forward j v c hf _ ih =>
    by_contra hno
    have hw := hi.waits_of_quiescent hq hf (by simpa using hno)
    rw [hi.ok.wf.quiet v (ih ha)] at hw
    cases hw

/-- An available value that is referenced reads as the end of its chain. -/
theorem Inv.reads (hi : Inv s) (ha : s.heap.isAvailable a = true) (hpos : 0 < s.heap.refs a) :
    ∃ c, ChainEnd s.heap s.fwd a c ∧ (s.heap.cell c).state = (s.heap.cell a).state ∧
      s.heap.value a = s.heap.value c := by
  cases hk : (s.heap.cell a).mKind with
  | kConcrete => exact ⟨a, .concrete (hi.ok.wf.lt_next hpos) hk, rfl, rfl⟩
  | kIndirect =>
    cases hm : (s.heap.cell a).mValue with
    | none => exact absurd hm (hi.ok.wf.resolved a hk ha hpos)
    | some c =>
      obtain ⟨-, -, -, hkc, hst, -⟩ := hi.ok.wf.points a c hm
      refine ⟨c, hi.links.points a c hm, hst, ?_⟩
      have hac : s.heap.isAvailable c = true := by
        rw [Heap.isAvailable, hst]
        exact ha
      simp only [Heap.value, ha, hac, hk, hkc, hm, Option.bind_some]

/-- When no thread is busy, a forwarded value is available if its target is. -/
theorem Inv.available_iff (hi : Inv s) (hq : s.Quiescent) (hf : s.fwd i = some v) :
    s.heap.isAvailable i = true ↔ s.heap.isAvailable v = true := by
  obtain ⟨hk, -, hvn⟩ := hi.links.kind i v hf
  constructor
  · intro ha
    obtain ⟨c, hc, hca⟩ := hi.links.ends i hk ha
    obtain ⟨u, hu, hcu⟩ := hc.indirect hk
    rw [hf] at hu
    cases hu
    exact hi.available_of_chainEnd hq hcu hca
  · intro hv
    have hend : ∃ c, ChainEnd s.heap s.fwd v c ∧ s.heap.isAvailable c = true := by
      cases hkv : (s.heap.cell v).mKind with
      | kConcrete => exact ⟨v, .concrete hvn hkv, hv⟩
      | kIndirect => exact hi.links.ends v hkv hv
    obtain ⟨c, hc, hca⟩ := hend
    exact hi.available_of_chainEnd hq (.forward hf hc) hca

/-- What a forwarded value reads as: the end of its target's chain. -/
theorem Inv.forwarded (hi : Inv s) (hf : s.fwd i = some v) (ha : s.heap.isAvailable i = true)
    (hpos : 0 < s.heap.refs i) :
    ∃ c, ChainEnd s.heap s.fwd v c ∧ (s.heap.cell c).state = (s.heap.cell i).state ∧
      s.heap.value i = s.heap.value c := by
  obtain ⟨c, hc, hst, hval⟩ := hi.reads ha hpos
  obtain ⟨u, hu, hcu⟩ := hc.indirect (hi.links.kind i v hf).1
  rw [hf] at hu
  cases hu
  exact ⟨c, hcu, hst, hval⟩

/-- The closures that wait hold references to unavailable values only. -/
theorem Inv.waiting_eq_zero (hi : Inv s) (ha : s.heap.isAvailable a = true) :
    Heap.waiting (Waiter.refs noClient) s.heap a = 0 := by
  refine Nat.eq_zero_of_not_pos fun hp => ?_
  obtain ⟨b, hb, w, hw, hpos⟩ := Heap.exists_of_waiting_pos _ a hp
  match w with
  | .forward j u =>
    obtain ⟨rfl, hf⟩ := hi.links.waits b j u hw
    have hbun : s.heap.isAvailable b ≠ true := fun h => by
      rw [hi.ok.wf.quiet b h] at hw
      cases hw
    have hjun : s.heap.isAvailable j ≠ true := fun h => by
      have hle := Heap.le_waiting (fun w => (Act.ofWaiter w).token) j hb hw
      have ho := hi.links.once j
      simp only [tokens, hf, h, Pi.add_apply, Bool.true_eq_false, and_false, ↓reduceIte] at ho
      simp only [Act.ofWaiter_forward, Act.token_forwardTo, Pi.single_eq_same] at hle
      exact absurd hle (by rw [Nat.eq_zero_of_add_eq_zero_right ho]; exact Nat.not_succ_le_zero 0)
    have h1 : a ≠ j := fun he => hjun (he ▸ ha)
    have h2 : a ≠ b := fun he => hbun (he ▸ ha)
    simp [Waiter.refs, Pi.single_eq_of_ne h1, Pi.single_eq_of_ne h2] at hpos

/-- **Forwarding chains.** In every state that any calls in any order reach, an available indirect
value points directly at the concrete value in which its chain ends, and has its state and type.
When no call is in progress, an indirect value is available if and only if that concrete value is,
and the count of an available value is what the clients hold plus one for each indirect value that
points at it. -/
theorem forward_correct (s : St V E) (hs : (sys V E).Reach Any s) :
    (∀ i, (s.heap.cell i).mKind = .kIndirect → 0 < s.heap.refs i → s.heap.isAvailable i = true →
      ∃ c, (s.heap.cell i).mValue = some c ∧ (s.heap.cell c).mKind = .kConcrete ∧
        (s.heap.cell c).state = (s.heap.cell i).state ∧
        (s.heap.cell c).mTypeId = (s.heap.cell i).mTypeId ∧ ChainEnd s.heap s.fwd i c) ∧
    (s.Quiescent → ∀ i, (s.heap.cell i).mKind = .kIndirect →
      (s.heap.isAvailable i = true ↔
        ∃ c, ChainEnd s.heap s.fwd i c ∧ s.heap.isAvailable c = true)) ∧
    (s.Quiescent → ∀ a, s.heap.isAvailable a = true → s.heap.refs a = s.handles a +
      ((Finset.range s.heap.next).filter fun i => (s.heap.cell i).mValue = some a).card) := by
  have hi := reach_inv hs
  refine ⟨fun i hk hr ha => ?_, fun hq i hk => ⟨hi.links.ends i hk, ?_⟩, fun hq a ha => ?_⟩
  · cases hm : (s.heap.cell i).mValue with
    | none => exact absurd hm (hi.ok.wf.resolved i hk ha hr)
    | some c =>
      obtain ⟨-, -, -, h4, h5, h6⟩ := hi.ok.wf.points i c hm
      exact ⟨c, rfl, h4, h5, h6, hi.links.points i c hm⟩
  · rintro ⟨c, hc, hca⟩
    exact hi.available_of_chainEnd hq hc hca
  · rw [hi.ok.acc a, hi.waiting_eq_zero ha, hq.acts, Heap.pointing_eq_card]
    simp only [List.map_nil, List.sum_nil, add_zero, zero_add]
    exact Nat.add_comm _ _

/-- `2` is forwarded to `1` and `1` to `0`, and then `0` is resolved. -/
def chainCalls : List (Label Unit Unit) :=
  [.make .kConcrete .kUnconstructed 7 (some (.ok ())), .make .kIndirect .kUnconstructed 0 none,
    .make .kIndirect .kUnconstructed 0 none, .addRef 1, .forwardTo 2 1, .addRef 0, .forwardTo 1 0,
    .emplace 0, .run 0, .run 0, .run 0, .run 0]

/-- The state after `chainCalls`. -/
def chained : St Unit Unit := (runLabels step start chainCalls).getD start

theorem forward_correct_chain :
    (sys Unit Unit).Reach Any chained ∧ chained.Quiescent ∧
    (∃ c, (chained.heap.cell 2).mValue = some c ∧ ChainEnd chained.heap chained.fwd 2 c) ∧
    chained.heap.refs 0 = chained.handles 0 + 2 := by
  have hr : (sys Unit Unit).Reach Any chained :=
    reach_runLabels (fun _ => True) (.init rfl) chainCalls (fun _ _ => trivial) rfl
  have hq : chained.Quiescent := by
    show ∀ t ∈ ([[], [], []] : List (List Act)), t = []
    decide
  obtain ⟨h1, -, h3⟩ := forward_correct chained hr
  obtain ⟨c, hc, -, -, -, hce⟩ := h1 2 rfl (by decide) rfl
  exact ⟨hr, hq, ⟨c, hc, hce⟩, h3 hq 0 rfl⟩

end Result

end Forward

end AsyncLib
