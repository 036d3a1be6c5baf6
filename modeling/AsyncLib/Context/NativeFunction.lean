import AsyncLib.Context.Forward
import AsyncLib.Context.RunWhenReady

/-!
# `SimpleFunction::Execute` and `GeneralFunction::Execute`

`async/context/native_function.cpp` and `.h`; the two functions have the same body. A call whose
arguments are all available calls the callable at once. Another one fills the results with indirect
values, and hands a closure to `RunWhenReady` that calls the callable and forwards the indirect
values to what it returned.

* `St`: the heap of `Context/Forward.lean` with its clients and threads, and the variables of one
  call. The deferred call of `RunWhenReady` is the one of `Context/RunWhenReady.lean`.
* `step`: the clients make, resolve, forward and drop values at any time, the callable among them.
  The callable ends its run with any values that it holds. `St.claims`: the references of the call,
  which the clients leave alone; nobody else forwards the indirect results.
* `Inv`, `execute_correct`: the callable runs once, with its arguments available, and the results
  become what it returned.
-/

namespace AsyncLib

namespace NativeFunction

open AsyncValue Sys
open RunWhenReady (Call)

/-! ## The code -/

/-- Where the closure that `RunWhenReady` runs is. -/
inductive Body where
  | idle
  /-- In the callable. -/
  | running
  /-- In its last loop, at `results[i]`. -/
  | forwarding (i : Nat)
  /-- It has returned; what it captured is still to be dropped. -/
  | dropping (refs : List Addr)
  deriving DecidableEq, Repr

/-- Where `Execute` is. -/
inductive Pc where
  /-- The loop over `arguments`: `rest` are left. -/
  | scan (rest : List Addr)
  /-- At the call of the callable. -/
  | direct
  /-- In the callable. -/
  | running
  | returned
  /-- The loop over `arguments` that makes `args`. -/
  | formRef (rest : List Addr)
  /-- The loop that makes the indirect results: `left` are left. -/
  | make (left : Nat)
  /-- In `RunWhenReady`, or after it. -/
  | deferred (call : Call Addr) (body : Body)

/-- The values, and the call of `Execute` with its variables. -/
structure St (V E : Type) where
  world : Forward.St V E
  arguments : List Addr
  numResults : Nat
  unavailableArgs : List Addr
  /-- The vector `args`. -/
  args : List Addr
  /-- The results of the caller; of a deferred call, also `indirectResults`. -/
  results : List Addr
  /-- What the callable returned. -/
  returned : List Addr
  /-- How often the callable was called. -/
  calls : Nat
  pc : Pc

variable {V E : Type}

/-- The value is resolved. -/
def St.isAvailable (s : St V E) (a : Addr) : Bool := s.world.heap.isAvailable a

/-- `MakeIndirectAsyncValue`, and the `CopyRef` for the caller. -/
def make (w : Forward.St V E) : Option (Forward.St V E) :=
  (Forward.step w (.make .kIndirect .kUnconstructed 0 none)).bind fun w' =>
    Forward.step w' (.addRef w.heap.next)

/-- `indirectResults[i]->ForwardTo(std::move(results[i]))`. -/
def forwardTo (w : Forward.St V E) (i v : Addr) : Forward.St V E :=
  { w with
    fwd := Function.update w.fwd i (some v)
    handles := Function.update w.handles v (w.handles v - 1) }.spawn (w.heap.forwardTo i v)

/-- A step of `Execute`, or of the call of `RunWhenReady` that it makes. -/
def execute (s : St V E) : Option (St V E) :=
  match s.pc with
  | .scan (a :: rest) =>
    some { s with
      pc := .scan rest
      unavailableArgs := if s.isAvailable a then s.unavailableArgs else s.unavailableArgs ++ [a] }
  | .scan [] =>
    if s.unavailableArgs = [] then some { s with pc := .direct }
    else some { s with pc := .formRef s.arguments }
  | .direct => some { s with pc := .running, calls := s.calls + 1 }
  | .formRef (a :: rest) =>
    (Forward.step s.world (.addRef a)).map fun w =>
      { s with world := w, args := s.args ++ [a], pc := .formRef rest }
  | .formRef [] => some { s with pc := .make s.numResults }
  | .make (left + 1) =>
    (make s.world).map fun w =>
      { s with world := w, results := s.results ++ [s.world.heap.next], pc := .make left }
  | .make 0 => some { s with pc := .deferred (.start s.unavailableArgs) .idle }
  | .deferred call body =>
    (call.advance s.isAvailable).map fun call => { s with pc := .deferred call body }
  | .running | .returned => none

/-- A step of callback `j` of `RunWhenReady`: its callee is the closure. -/
def fire (s : St V E) (j : Nat) : Option (St V E) :=
  match s.pc with
  | .deferred call body =>
    match call.callbacks[j]?, body with
    | some .callee, _ =>
      (call.fire s.isAvailable j).map fun call =>
        { s with calls := s.calls + 1, pc := .deferred call .running }
    | some .running, .dropping refs =>
      (call.fire s.isAvailable j).map fun call => { s with pc := .deferred call (.dropping refs) }
    | some .running, _ => none
    | _, body => (call.fire s.isAvailable j).map fun call => { s with pc := .deferred call body }
  | _ => none

/-- The callable returns `vs`. -/
def returns (s : St V E) (vs : List Addr) : Option (St V E) :=
  match s.pc with
  | .running => some { s with results := vs, returned := vs, pc := .returned }
  | .deferred call .running =>
    some { s with returned := vs, pc := .deferred call (.forwarding 0) }
  | _ => none

/-- A step of the last loop of the closure. -/
def forward (s : St V E) : Option (St V E) :=
  match s.pc with
  | .deferred call (.forwarding i) =>
    match s.results[i]?, s.returned[i]? with
    | some r, some v =>
      some { s with world := forwardTo s.world r v, pc := .deferred call (.forwarding (i + 1)) }
    | _, _ => some { s with pc := .deferred call (.dropping (s.args ++ s.results)) }
  | _ => none

/-- The closure is destroyed. -/
def drop (s : St V E) : Option (St V E) :=
  match s.pc with
  | .deferred call (.dropping (a :: refs)) =>
    (Forward.step s.world (.dropRef a)).map fun w =>
      { s with world := w, pc := .deferred call (.dropping refs) }
  | _ => none

/-! ## References -/

/-- The references that the closure holds in each of its places. -/
def Body.held (args results returned : List Addr) : Body → List Addr
  | .idle => args ++ results
  | .running => args ++ results
  | .forwarding i => args ++ results ++ returned.drop i
  | .dropping refs => refs

/-- The references that the call holds. -/
def St.held (s : St V E) : List Addr :=
  match s.pc with
  | .formRef _ => s.args
  | .make _ => s.args ++ s.results
  | .deferred _ body => body.held s.args s.results s.returned
  | _ => []

/-- `Execute` has not returned, and its caller keeps the arguments. -/
def St.executing (s : St V E) : Bool :=
  match s.pc with
  | .returned => false
  | .deferred call _ => call.pc != .returned
  | _ => true

/-- The references of the call, and one of the caller to each argument. -/
def St.claims (s : St V E) (a : Addr) : Nat :=
  s.held.count a + (s.executing && decide (a ∈ s.arguments)).toNat

/-- The results that the call is going to forward. -/
def St.indirects (s : St V E) : List Addr :=
  match s.pc with
  | .make _ => s.results
  | .deferred _ _ => s.results
  | _ => []

/-- A step of the call, or one of the rest of the program. -/
inductive Label (V E : Type) where
  /-- A client or a thread that runs closures takes a step. -/
  | world (l : Forward.Label V E)
  | execute
  | fire (j : Nat)
  | returns (vs : List Addr)
  | forward
  | drop

/-- What the other threads leave alone. -/
def Respects (s : St V E) (w : Forward.St V E) : Prop :=
  (∀ a ∈ s.held ++ s.arguments, s.claims a ≤ w.handles a) ∧
    ∀ r ∈ s.indirects, w.fwd r = s.world.fwd r

instance (s : St V E) (w : Forward.St V E) : Decidable (Respects s w) :=
  inferInstanceAs (Decidable (_ ∧ _))

/-- The callable holds what it returns, one value for each result. -/
def Returnable (s : St V E) (vs : List Addr) : Prop :=
  vs.length = s.numResults ∧ ∀ a ∈ vs, s.claims a + vs.count a ≤ s.world.handles a

instance (s : St V E) (vs : List Addr) : Decidable (Returnable s vs) :=
  inferInstanceAs (Decidable (_ ∧ _))

/-- One step; `none` if it is not enabled. -/
def step (s : St V E) : Label V E → Option (St V E)
  | .world l =>
    (Forward.step s.world l).bind fun w => if Respects s w then some { s with world := w } else none
  | .execute => execute s
  | .fire j => fire s j
  | .returns vs => if Returnable s vs then returns s vs else none
  | .forward => forward s
  | .drop => drop s

/-- `Execute` is called. -/
def init (world : Forward.St V E) (arguments : List Addr) (numResults : Nat) : St V E where
  world := world
  arguments := arguments
  numResults := numResults
  unavailableArgs := []
  args := []
  results := []
  returned := []
  calls := 0
  pc := .scan arguments

/-- All runs of a call with these arguments. -/
def sys (world : Forward.St V E) (arguments : List Addr) (numResults : Nat) :
    Sys (St V E) (Label V E) := Sys.ofFun (init world arguments numResults) step

/-! ## The invariant -/

/-- An argument that was looked at and not found available is collected. -/
def St.Scanned (s : St V E) (rest : List Addr) : Prop :=
  ∀ a ∈ s.arguments, s.isAvailable a = true ∨ a ∈ s.unavailableArgs ∨ a ∈ rest

/-- The indirect results, of which the first `i` were forwarded. -/
structure Made (w : Forward.St V E) (results returned : List Addr) (i : Nat) : Prop where
  nodup : results.Nodup
  kind : ∀ r ∈ results, (w.heap.cell r).mKind = .kIndirect
  lt_next : ∀ r ∈ results, r < w.heap.next
  fwd : ∀ k r, results[k]? = some r → w.fwd r = if k < i then returned[k]? else none

/-- The closure: the callable was called when it is not idle any more. -/
def St.BodyOk (s : St V E) : Body → Prop
  | .idle => s.calls = 0 ∧ Made s.world s.results s.returned 0
  | .running => s.calls = 1 ∧ Made s.world s.results s.returned 0
  | .forwarding i => s.calls = 1 ∧ s.returned.length = s.numResults ∧ i ≤ s.numResults ∧
      Made s.world s.results s.returned i
  | .dropping _ => s.calls = 1 ∧ s.returned.length = s.numResults ∧
      Made s.world s.results s.returned s.numResults

/-- What holds while the call is left to `RunWhenReady`. -/
structure St.Deferred (s : St V E) (call : Call Addr) (body : Body) : Prop where
  scanned : s.Scanned []
  args : s.args = s.arguments
  results : s.results.length = s.numResults
  calls : call.calls = s.calls
  ready : RunWhenReady.Inv s.isAvailable s.unavailableArgs call
  listed : RunWhenReady.Listed s.unavailableArgs call
  started : .running ∈ call.callbacks → body ≠ .idle
  body : s.BodyOk body

/-- What holds at each place of `Execute`. -/
def St.Place (s : St V E) : Pc → Prop
  | .scan rest => s.calls = 0 ∧ s.args = [] ∧ s.results = [] ∧ s.Scanned rest ∧
      ∀ a ∈ rest, a ∈ s.arguments
  | .direct => s.calls = 0 ∧ ∀ a ∈ s.arguments, s.isAvailable a = true
  | .running => s.calls = 1 ∧ ∀ a ∈ s.arguments, s.isAvailable a = true
  | .returned => s.calls = 1 ∧ (∀ a ∈ s.arguments, s.isAvailable a = true) ∧
      s.results = s.returned ∧ s.returned.length = s.numResults
  | .formRef rest => s.calls = 0 ∧ s.Scanned [] ∧ s.args ++ rest = s.arguments ∧ s.results = []
  | .make left => s.calls = 0 ∧ s.Scanned [] ∧ s.args = s.arguments ∧
      s.results.length + left = s.numResults ∧ Made s.world s.results s.returned 0
  | .deferred call body => s.Deferred call body

/-- What holds in all runs: the call owns its handles, and its place says what was done. -/
structure Inv (s : St V E) : Prop where
  world : Forward.Inv s.world
  claims : ∀ a, s.claims a ≤ s.world.handles a
  arguments : ∀ a ∈ s.arguments, a < s.world.heap.next
  unavailable : ∀ a ∈ s.unavailableArgs, a ∈ s.arguments
  place : s.Place s.pc

section Steps

variable {s s' : St V E} {w : Forward.St V E} {a : Addr}

theorem Made.mono {results returned : List Addr} {i : Nat} {w' : Forward.St V E}
    (h : Made w results returned i) (hg : Heap.Grows w.heap w'.heap)
    (hfwd : ∀ r ∈ results, w'.fwd r = w.fwd r) : Made w' results returned i where
  nodup := h.nodup
  kind r hr := (hg.mKind r (h.lt_next r hr)).trans (h.kind r hr)
  lt_next r hr := Nat.lt_of_lt_of_le (h.lt_next r hr) hg.next
  fwd k r hk := (hfwd r (List.mem_of_getElem? hk)).trans (h.fwd k r hk)

theorem St.BodyOk.mono {body : Body} (h : s.BodyOk body)
    (hm : ∀ i, Made s.world s.results s.returned i → Made w s.results s.returned i) :
    St.BodyOk { s with world := w } body := by
  cases body with
  | idle => exact ⟨h.1, hm 0 h.2⟩
  | running => exact ⟨h.1, hm 0 h.2⟩
  | forwarding i => exact ⟨h.1, h.2.1, h.2.2.1, hm i h.2.2.2⟩
  | dropping refs => exact ⟨h.1, h.2.1, hm _ h.2.2⟩

/-- An argument that is available stays so. -/
theorem Inv.available (h : Inv s) (hg : Heap.Grows s.world.heap w.heap) :
    ∀ a ∈ s.arguments, s.isAvailable a = true → w.heap.isAvailable a = true :=
  fun a ha => hg.isAvailable (h.arguments a ha)

/-- The closure goes on in a later heap. -/
theorem Inv.deferred (h : Inv s) {call : Call Addr} {body p : Body} (hd : s.Deferred call body)
    (hg : Heap.Grows s.world.heap w.heap) (hb : St.BodyOk { s with world := w } p)
    (hidle : body ≠ .idle → p ≠ .idle) : St.Deferred { s with world := w } call p where
  scanned a ha := (hd.scanned a ha).imp_left (h.available hg a ha)
  args := hd.args
  results := hd.results
  calls := hd.calls
  ready := hd.ready.mono fun v hv => h.available hg v (h.unavailable v hv)
  listed := hd.listed
  started hr := hidle (hd.started hr)
  body := hb

/-- A later heap in which nobody has touched what the call holds. -/
theorem Inv.later (h : Inv s) (hw : Forward.Inv w) (hg : Heap.Grows s.world.heap w.heap)
    (hcl : ∀ a, s.claims a ≤ w.handles a) (hfwd : ∀ r ∈ s.indirects, w.fwd r = s.world.fwd r) :
    Inv { s with world := w } := by
  have hav := h.available hg
  have hscan : ∀ rest, s.Scanned rest → St.Scanned { s with world := w } rest :=
    fun rest hs a ha => (hs a ha).imp_left (hav a ha)
  refine ⟨hw, hcl, fun a ha => Nat.lt_of_lt_of_le (h.arguments a ha) hg.next, h.unavailable, ?_⟩
  have hp := h.place
  unfold St.indirects at hfwd
  show St.Place { s with world := w } s.pc
  cases hpc : s.pc with
  | scan rest =>
    rw [hpc] at hp
    obtain ⟨h1, h2, h3, h4, h5⟩ := hp
    exact ⟨h1, h2, h3, hscan rest h4, h5⟩
  | direct =>
    rw [hpc] at hp
    exact ⟨hp.1, fun a ha => hav a ha (hp.2 a ha)⟩
  | running =>
    rw [hpc] at hp
    exact ⟨hp.1, fun a ha => hav a ha (hp.2 a ha)⟩
  | returned =>
    rw [hpc] at hp
    exact ⟨hp.1, fun a ha => hav a ha (hp.2.1 a ha), hp.2.2⟩
  | formRef rest =>
    rw [hpc] at hp
    exact ⟨hp.1, hscan [] hp.2.1, hp.2.2⟩
  | make left =>
    rw [hpc] at hp hfwd
    obtain ⟨h1, h2, h3, h4, h5⟩ := hp
    exact ⟨h1, hscan [] h2, h3, h4, h5.mono hg hfwd⟩
  | deferred call body =>
    rw [hpc] at hp hfwd
    have hd : s.Deferred call body := hp
    have hnew := h.deferred hd hg (hd.body.mono fun i hm => hm.mono hg hfwd) id
    rw [hpc] at hnew
    exact hnew

/-- The references of the call are references. -/
theorem Inv.held (h : Inv s) (ha : 0 < s.claims a) : 0 < s.world.handles a :=
  Nat.lt_of_lt_of_le ha (h.claims a)

theorem claims_pos (ha : a ∈ s.held) : 0 < s.claims a :=
  Nat.lt_of_lt_of_le (List.count_pos_iff.mpr ha) (Nat.le_add_right _ _)

/-- What is not held and no argument is not claimed. -/
theorem claims_eq_zero (ha : a ∉ s.held ++ s.arguments) : s.claims a = 0 := by
  obtain ⟨hh, harg⟩ := not_or.mp (mt List.mem_append.mpr ha)
  rw [St.claims, List.count_eq_zero.mpr hh, decide_eq_false harg, Bool.and_false]
  rfl

/-- Clients and threads go on. -/
theorem Inv.world_step (h : Inv s) {l : Forward.Label V E} (hs : step s (.world l) = some s') :
    Inv s' := by
  obtain ⟨w, hw, hs⟩ := Option.bind_eq_some_iff.mp hs
  obtain ⟨hr, hs⟩ := Option.ite_none_right_eq_some.mp hs
  cases hs
  refine h.later (h.world.preserved hw) (h.world.grows hw) (fun a => ?_) hr.2
  by_cases ha : a ∈ s.held ++ s.arguments
  · exact hr.1 a ha
  · rw [claims_eq_zero ha]
    exact Nat.zero_le _

/-- The place changes, and no reference is added. -/
theorem Inv.of_held (h : Inv s) (hw : s'.world = s.world) (harg : s'.arguments = s.arguments)
    (hheld : ∀ a, s'.held.count a ≤ s.held.count a) (hex : s'.executing = true → s.executing = true)
    (hun : ∀ a ∈ s'.unavailableArgs, a ∈ s.arguments) (hp : s'.Place s'.pc) : Inv s' := by
  refine ⟨hw ▸ h.world, fun a => ?_, ?_, harg ▸ hun, hp⟩
  · rw [hw]
    refine Nat.le_trans (Nat.add_le_add (hheld a) ?_) (h.claims a)
    rw [harg]
    cases hx : s'.executing with
    | false => exact Nat.zero_le _
    | true => rw [hex hx]
  · rw [hw, harg]
    exact h.arguments

theorem addRef_world {w' : Forward.St V E} (hs : Forward.step w (.addRef a) = some w') :
    w'.fwd = w.fwd ∧ w'.handles = Function.update w.handles a (w.handles a + 1) ∧
      w'.heap = w.heap.addRef a 1 := by
  obtain ⟨-, hs⟩ := Option.ite_none_right_eq_some.mp hs
  cases hs
  exact ⟨rfl, rfl, rfl⟩

theorem dropRef_world {w' : Forward.St V E} (hs : Forward.step w (.dropRef a) = some w') :
    w'.fwd = w.fwd ∧ w'.handles = Function.update w.handles a (w.handles a - 1) := by
  obtain ⟨-, hs⟩ := Option.ite_none_right_eq_some.mp hs
  cases hs
  exact ⟨rfl, rfl⟩

/-- A new indirect value, with two references. -/
theorem make_world {w' : Forward.St V E} (hs : make w = some w') :
    w'.fwd = w.fwd ∧ w'.heap.next = w.heap.next + 1 ∧
      (w'.heap.cell w.heap.next).mKind = .kIndirect ∧
      w'.handles = Function.update w.handles w.heap.next (w.handles w.heap.next + 2) := by
  obtain ⟨w₁, hmake, hadd⟩ := Option.bind_eq_some_iff.mp hs
  obtain ⟨hfwd, hhandles, hheap⟩ := addRef_world hadd
  simp only [Forward.step, implies_true, if_true] at hmake
  cases hmake
  refine ⟨hfwd, by rw [hheap]; rfl, ?_, ?_⟩
  · rw [hheap]
    simp [Heap.alloc]
  · rw [hhandles]
    show Function.update (Function.update w.handles w.heap.next (w.handles w.heap.next + 1))
      w.heap.next (Function.update w.handles w.heap.next (w.handles w.heap.next + 1) w.heap.next +
        1) = _
    rw [Function.update_self, Function.update_idem]

theorem make_inv {w' : Forward.St V E} (hw : Forward.Inv w) (hs : make w = some w') :
    Forward.Inv w' ∧ Heap.Grows w.heap w'.heap := by
  obtain ⟨w₁, hmake, hadd⟩ := Option.bind_eq_some_iff.mp hs
  have hw₁ := hw.preserved hmake
  exact ⟨hw₁.preserved hadd, (hw.grows hmake).trans (hw₁.grows hadd)⟩

/-- The loop over the arguments. -/
theorem Inv.scan_cons (h : Inv s) {rest : List Addr} (hpc : s.pc = .scan (a :: rest)) :
    Inv { s with
      pc := .scan rest
      unavailableArgs :=
        if s.isAvailable a then s.unavailableArgs else s.unavailableArgs ++ [a] } := by
  have hp := h.place
  rw [hpc] at hp
  obtain ⟨h1, h2, h3, h4, h5⟩ := hp
  have harg : a ∈ s.arguments := h5 a List.mem_cons_self
  refine h.of_held rfl rfl (fun b => ?_) (fun _ => ?_) (fun b hb => ?_)
    ⟨h1, h2, h3, fun b hb => ?_, fun b hb => h5 b (List.mem_cons_of_mem _ hb)⟩
  · simp only [St.held, hpc]
    exact Nat.le_refl _
  · simp only [St.executing, hpc]
  · simp only at hb
    split at hb
    · exact h.unavailable b hb
    · rcases List.mem_append.mp hb with hb | hb
      · exact h.unavailable b hb
      · rw [List.mem_singleton.mp hb]
        exact harg
  · simp only
    rcases h4 b hb with hav | hun | hr
    · exact .inl hav
    · refine .inr (.inl ?_)
      split
      · exact hun
      · exact List.mem_append_left _ hun
    · rcases List.mem_cons.mp hr with rfl | hr
      · by_cases hav : s.isAvailable b = true
        · exact .inl hav
        · rw [if_neg hav]
          exact .inr (.inl (List.mem_append_right _ (List.mem_singleton_self b)))
      · exact .inr (.inr hr)

/-- After the loop over the arguments. -/
theorem Inv.scan_nil (h : Inv s) (hpc : s.pc = .scan []) (hs : execute s = some s') : Inv s' := by
  have hp := h.place
  rw [hpc] at hp
  obtain ⟨h1, h2, h3, h4, -⟩ := hp
  have hheld : s.held = [] := by simp only [St.held, hpc]
  have hex : s.executing = true := by simp only [St.executing, hpc]
  simp only [execute, hpc] at hs
  split at hs
  · rename_i hnil
    cases hs
    refine h.of_held rfl rfl (fun b => Nat.zero_le _) (fun _ => hex) h.unavailable
      ⟨h1, fun b hb => ?_⟩
    rcases h4 b hb with hav | hun | hr
    · exact hav
    · rw [hnil] at hun
      cases hun
    · cases hr
  · cases hs
    refine h.of_held rfl rfl (fun b => ?_) (fun _ => hex) h.unavailable ⟨h1, h4, ?_, h3⟩
    · show s.args.count b ≤ _
      rw [h2]
      exact Nat.zero_le _
    · rw [h2]
      rfl

/-- `FormRef` of an argument. -/
theorem Inv.formRef (h : Inv s) {rest : List Addr} (hpc : s.pc = .formRef (a :: rest))
    (hs : Forward.step s.world (.addRef a) = some w) :
    Inv { s with world := w, args := s.args ++ [a], pc := .formRef rest } := by
  have hp := h.place
  rw [hpc] at hp
  obtain ⟨h1, h2, h3, h4⟩ := hp
  obtain ⟨hfwd, hhandles, -⟩ := addRef_world hs
  have hle : ∀ b, s.world.handles b + [a].count b ≤ w.handles b := by
    intro b
    rw [hhandles, List.count_singleton]
    by_cases hb : b = a
    · subst hb
      simp
    · rw [Function.update_of_ne hb]
      simp [Ne.symm hb]
  have hlater := h.later (h.world.preserved hs) (h.world.grows hs)
    (fun b => Nat.le_trans (h.claims b) (Nat.le_trans (Nat.le_add_right _ _) (hle b)))
    fun r _ => by rw [hfwd]
  have hp' := hlater.place
  rw [hpc] at hp'
  refine ⟨hlater.world, fun b => ?_, hlater.arguments, hlater.unavailable,
    ⟨h1, hp'.2.1, by rw [List.append_assoc]; exact h3, h4⟩⟩
  have hclaim := h.claims b
  have hnew : St.claims { s with world := w, args := s.args ++ [a], pc := .formRef rest } b =
      s.claims b + [a].count b := by
    simp only [St.claims, St.held, St.executing, hpc, List.count_append]
    omega
  rw [hnew]
  exact Nat.le_trans (Nat.add_le_add_right hclaim _) (hle b)

/-- A new result. -/
theorem Made.concat {results : List Addr} {w' : Forward.St V E} (hw : Forward.Inv w)
    (h : Made w results [] 0) (hs : make w = some w') : Made w' (results ++ [w.heap.next]) [] 0 := by
  obtain ⟨hfwd, hnext, hkind, -⟩ := make_world hs
  have h' := h.mono (make_inv hw hs).2 fun r _ => by rw [hfwd]
  have hnew : ∀ r ∈ results ++ [w.heap.next], r ∈ results ∨ r = w.heap.next := fun r hr =>
    (List.mem_append.mp hr).imp_right List.mem_singleton.mp
  refine ⟨?_, fun r hr => ?_, fun r hr => ?_, fun k r hk => ?_⟩
  · refine List.nodup_append.mpr ⟨h.nodup, List.nodup_singleton _, fun r hr r' hr' => ?_⟩
    rw [List.mem_singleton.mp hr']
    exact Nat.ne_of_lt (h.lt_next r hr)
  · rcases hnew r hr with hr | rfl
    · exact h'.kind r hr
    · exact hkind
  · rcases hnew r hr with hr | rfl
    · exact h'.lt_next r hr
    · rw [hnext]
      exact Nat.lt_succ_self _
  · rw [if_neg (Nat.not_lt_zero k), hfwd]
    rcases hnew r (List.mem_of_getElem? hk) with hr | rfl
    · obtain ⟨k', hk'⟩ := List.mem_iff_getElem?.mp hr
      have := h.fwd k' r hk'
      rwa [if_neg (Nat.not_lt_zero k')] at this
    · cases hf : w.fwd w.heap.next with
      | none => rfl
      | some v => exact absurd (hw.links.kind _ v hf).2.1 (Nat.lt_irrefl _)

/-- Nothing is forwarded yet. -/
theorem Made.returned {results us vs : List Addr} (h : Made w results us 0) : Made w results vs 0 :=
  ⟨h.nodup, h.kind, h.lt_next, fun k r hk => (h.fwd k r hk).trans (by
    rw [if_neg (Nat.not_lt_zero k), if_neg (Nat.not_lt_zero k)])⟩

/-- A new result for the caller and for the closure. -/
theorem Inv.make (h : Inv s) {left : Nat} (hpc : s.pc = .make (left + 1))
    (hs : make s.world = some w) :
    Inv { s with world := w, results := s.results ++ [s.world.heap.next], pc := .make left } := by
  have hp := h.place
  rw [hpc] at hp
  obtain ⟨h1, h2, h3, h4, h5⟩ := hp
  obtain ⟨hfwd, hnext, -, hhandles⟩ := make_world hs
  obtain ⟨hinv, hg⟩ := make_inv h.world hs
  have hle : ∀ b, s.world.handles b + [s.world.heap.next].count b ≤ w.handles b := by
    intro b
    rw [hhandles, List.count_singleton]
    by_cases hb : b = s.world.heap.next
    · subst hb
      simp
    · rw [Function.update_of_ne hb]
      simp [Ne.symm hb]
  have hlater := h.later hinv hg
    (fun b => Nat.le_trans (h.claims b) (Nat.le_trans (Nat.le_add_right _ _) (hle b)))
    fun r _ => by rw [hfwd]
  have hp' := hlater.place
  rw [hpc] at hp'
  refine ⟨hlater.world, fun b => ?_, hlater.arguments, hlater.unavailable, h1, hp'.2.1, h3, ?_,
    Made.returned (h5.returned.concat h.world hs)⟩
  · have hnew : St.claims
        { s with world := w, results := s.results ++ [s.world.heap.next], pc := .make left } b =
          s.claims b + [s.world.heap.next].count b := by
      simp only [St.claims, St.held, St.executing, hpc, List.count_append]
      omega
    rw [hnew]
    exact Nat.le_trans (Nat.add_le_add_right (h.claims b) _) (hle b)
  · show (s.results ++ [s.world.heap.next]).length + left = s.numResults
    rw [List.length_append, List.length_singleton]
    omega

theorem Inv.formRef_nil (h : Inv s) (hpc : s.pc = .formRef []) :
    Inv { s with pc := .make s.numResults } := by
  have hp := h.place
  rw [hpc] at hp
  obtain ⟨h1, h2, h3, h4⟩ := hp
  rw [List.append_nil] at h3
  have hheld : s.held = s.args := by simp only [St.held, hpc]
  have hex : s.executing = true := by simp only [St.executing, hpc]
  refine h.of_held rfl rfl (fun b => ?_) (fun _ => hex) h.unavailable ⟨h1, h2, h3, ?_, ?_⟩
  · rw [hheld]
    show (s.args ++ s.results).count b ≤ _
    rw [h4, List.append_nil]
  · show s.results.length + s.numResults = s.numResults
    rw [h4]
    exact Nat.zero_add _
  · show Made s.world s.results s.returned 0
    rw [h4]
    exact ⟨List.nodup_nil, nofun, nofun, nofun⟩

/-- `RunWhenReady` is called. -/
theorem Inv.make_zero (h : Inv s) (hpc : s.pc = .make 0) :
    Inv { s with pc := .deferred (.start s.unavailableArgs) .idle } := by
  have hp := h.place
  rw [hpc] at hp
  obtain ⟨h1, h2, h3, h4, h5⟩ := hp
  have hheld : s.held = s.args ++ s.results := by simp only [St.held, hpc]
  have hex : s.executing = true := by simp only [St.executing, hpc]
  exact h.of_held rfl rfl (fun b => by rw [hheld]; exact Nat.le_refl _) (fun _ => hex)
    h.unavailable {
    scanned := h2
    args := h3
    results := h4
    calls := h1.symm
    ready := .start _ _
    listed := .start _
    started := nofun
    body := ⟨h1, h5⟩ }

/-- The caller of `RunWhenReady` calls nothing itself. -/
theorem advance_calls {avail : Addr → Bool} {c c' : Call Addr} (hf : c.advance avail = some c') :
    c'.calls = c.calls ∧ c.pc ≠ .returned ∧ (.running ∈ c'.callbacks → .running ∈ c.callbacks) := by
  unfold Call.advance at hf
  split at hf
  · rename_i hpc
    cases hf
    exact ⟨rfl, by rw [hpc]; nofun, id⟩
  · rename_i hpc
    have hne : c.pc ≠ .returned := by rw [hpc]; nofun
    split at hf
    · cases hf
      exact ⟨rfl, hne, fun hr => by cases List.mem_singleton.mp hr⟩
    · split at hf <;> cases hf <;> exact ⟨rfl, hne, id⟩
  · rename_i v rest hpc
    have hne : c.pc ≠ .returned := by rw [hpc]; nofun
    split at hf <;> cases hf
    · refine ⟨rfl, hne, fun hr => ?_⟩
      rcases List.mem_append.mp hr with hr | hr
      · exact hr
      · cases List.mem_singleton.mp hr
    · refine ⟨rfl, hne, fun hr => ?_⟩
      rcases List.mem_append.mp hr with hr | hr
      · exact hr
      · cases List.mem_singleton.mp hr
  · rename_i hpc
    cases hf
    exact ⟨rfl, by rw [hpc]; nofun, id⟩
  · rename_i hpc
    have hne : c.pc ≠ .returned := by rw [hpc]; nofun
    split at hf
    · cases hf
      exact ⟨rfl, hne, id⟩
    · cases hf
  · cases hf

/-- A callback that is not at the call of the callee. -/
theorem fire_calls {avail : Addr → Bool} {c c' : Call Addr} {j : Nat}
    (hf : c.fire avail j = some c')
    (hj : c.callbacks[j]? ≠ some .callee) :
    c'.calls = c.calls ∧ c'.pc = c.pc ∧ (.running ∈ c'.callbacks → .running ∈ c.callbacks) := by
  have hset : ∀ x : RunWhenReady.Callback Addr, x ≠ .running → .running ∈ c.callbacks.set j x →
      .running ∈ c.callbacks := fun x hx hr =>
    (List.mem_or_eq_of_mem_set hr).resolve_right fun he => hx he.symm
  unfold Call.fire at hf
  split at hf
  · obtain ⟨-, hf⟩ := Option.ite_none_right_eq_some.mp hf
    cases hf
    exact ⟨rfl, rfl, hset _ nofun⟩
  · split at hf
    · cases hf
      exact ⟨rfl, rfl, hset _ nofun⟩
    · cases hf
      exact ⟨rfl, rfl, hset _ (by split <;> nofun)⟩
  · rename_i hcallee
    exact absurd hcallee hj
  · cases hf
    exact ⟨rfl, rfl, hset _ (by split <;> nofun)⟩
  · cases hf
    exact ⟨rfl, rfl, hset _ nofun⟩
  · cases hf

/-- The callee is called. -/
theorem fire_callee {avail : Addr → Bool} {c c' : Call Addr} {j : Nat}
    (hf : c.fire avail j = some c')
    (hj : c.callbacks[j]? = some .callee) : c'.calls = c.calls + 1 ∧ c'.pc = c.pc := by
  unfold Call.fire at hf
  rw [hj] at hf
  cases hf
  exact ⟨rfl, rfl⟩

theorem Inv.advance (h : Inv s) {call call' : Call Addr} {body : Body}
    (hpc : s.pc = .deferred call body)
    (hs : call.advance s.isAvailable = some call') : Inv { s with pc := .deferred call' body } := by
  have hp := h.place
  rw [hpc] at hp
  have hd : s.Deferred call body := hp
  obtain ⟨hcalls, hne, hrunning⟩ := advance_calls hs
  have hheld : s.held = body.held s.args s.results s.returned := by simp only [St.held, hpc]
  have hex : s.executing = true := by
    simp only [St.executing, hpc]
    exact bne_iff_ne.mpr hne
  exact h.of_held rfl rfl (fun b => by rw [hheld]; exact Nat.le_refl _) (fun _ => hex)
    h.unavailable {
    scanned := hd.scanned
    args := hd.args
    results := hd.results
    calls := hcalls.trans hd.calls
    ready := hd.ready.advance hs
    listed := hd.listed.advance hs
    started := fun hr => hd.started (hrunning hr)
    body := hd.body }

/-- A step of a callback that does not call the closure. -/
theorem Inv.fire_other (h : Inv s) {call call' : Call Addr} {body : Body} {j : Nat}
    (hpc : s.pc = .deferred call body) (hj : call.callbacks[j]? ≠ some .callee)
    (hs : call.fire s.isAvailable j = some call') : Inv { s with pc := .deferred call' body } := by
  have hp := h.place
  rw [hpc] at hp
  have hd : s.Deferred call body := hp
  obtain ⟨hcalls, hcpc, hrunning⟩ := fire_calls hs hj
  have hheld : s.held = body.held s.args s.results s.returned := by simp only [St.held, hpc]
  have hex : St.executing { s with pc := .deferred call' body } = s.executing := by
    simp only [St.executing, hpc, hcpc]
  exact h.of_held rfl rfl (fun b => by rw [hheld]; exact Nat.le_refl _) (fun he => hex ▸ he)
    h.unavailable {
      scanned := hd.scanned
      args := hd.args
      results := hd.results
      calls := hcalls.trans hd.calls
      ready := hd.ready.fire hs
      listed := hd.listed.fire hs
      started := fun hr => hd.started (hrunning hr)
      body := hd.body }

/-- The closure is called: it was not called before. -/
theorem St.Deferred.idle {call : Call Addr} {body : Body} {j : Nat} (hd : s.Deferred call body)
    (hj : call.callbacks[j]? = some .callee) : s.calls = 0 ∧ body = .idle := by
  have honce := (hd.ready.registered (hd.ready.of_callback hj)).once
  have hpos : 0 < call.callbacks.countP RunWhenReady.Callback.atCallee :=
    List.countP_pos_iff.mpr ⟨_, List.mem_of_getElem? hj, rfl⟩
  have hcalls := hd.calls
  have hzero : s.calls = 0 := by omega
  have hbody := hd.body
  refine ⟨hzero, ?_⟩
  cases body with
  | idle => rfl
  | running => exact absurd (hzero.symm.trans hbody.1) nofun
  | forwarding i => exact absurd (hzero.symm.trans hbody.1) nofun
  | dropping refs => exact absurd (hzero.symm.trans hbody.1) nofun

theorem Inv.fire_callee (h : Inv s) {call call' : Call Addr} {body : Body} {j : Nat}
    (hpc : s.pc = .deferred call body) (hj : call.callbacks[j]? = some .callee)
    (hs : call.fire s.isAvailable j = some call') :
    Inv { s with calls := s.calls + 1, pc := .deferred call' .running } := by
  have hp := h.place
  rw [hpc] at hp
  have hd : s.Deferred call body := hp
  obtain ⟨hzero, rfl⟩ := hd.idle hj
  obtain ⟨hcalls, hcpc⟩ := NativeFunction.fire_callee hs hj
  have hheld : s.held = s.args ++ s.results := by simp only [St.held, hpc, Body.held]
  have hex : St.executing { s with calls := s.calls + 1, pc := .deferred call' .running } =
      s.executing := by
    simp only [St.executing, hpc, hcpc]
  have hone : s.calls + 1 = 1 := by rw [hzero]
  exact h.of_held rfl rfl (fun b => by rw [hheld]; exact Nat.le_refl _) (fun he => hex ▸ he)
    h.unavailable {
      scanned := hd.scanned
      args := hd.args
      results := hd.results
      calls := by rw [hcalls, hd.calls]
      ready := hd.ready.fire hs
      listed := hd.listed.fire hs
      started := fun _ => nofun
      body := ⟨hone, hd.body.2⟩ }

theorem Inv.fire (h : Inv s) {j : Nat} (hs : fire s j = some s') : Inv s' := by
  unfold NativeFunction.fire at hs
  split at hs
  · rename_i call body hpc
    split at hs
    · rename_i hj
      obtain ⟨call', hf, rfl⟩ := Option.map_eq_some_iff.mp hs
      exact h.fire_callee hpc hj hf
    · rename_i refs hj
      obtain ⟨call', hf, rfl⟩ := Option.map_eq_some_iff.mp hs
      exact h.fire_other hpc (by rw [hj]; nofun) hf
    · cases hs
    · rename_i hcallee _ _
      obtain ⟨call', hf, rfl⟩ := Option.map_eq_some_iff.mp hs
      exact h.fire_other hpc hcallee hf
  · cases hs

/-- The callable returns values that it holds. -/
theorem Inv.returns (h : Inv s) {vs : List Addr} (hr : Returnable s vs)
    (hs : returns s vs = some s') :
    Inv s' := by
  have hp := h.place
  unfold NativeFunction.returns at hs
  split at hs
  · rename_i hpc
    rw [hpc] at hp
    cases hs
    exact h.of_held rfl rfl (fun b => Nat.zero_le _) nofun h.unavailable ⟨hp.1, hp.2, rfl, hr.1⟩
  · rename_i call hpc
    rw [hpc] at hp
    have hd : s.Deferred call .running := hp
    cases hs
    refine ⟨h.world, fun b => ?_, h.arguments, h.unavailable, {
      scanned := hd.scanned
      args := hd.args
      results := hd.results
      calls := hd.calls
      ready := hd.ready
      listed := hd.listed
      started := fun _ => nofun
      body := ⟨hd.body.1, hr.1, Nat.zero_le _, hd.body.2.returned⟩ }⟩
    have hnew : St.claims { s with returned := vs, pc := .deferred call (.forwarding 0) } b =
        s.claims b + vs.count b := by
      simp only [St.claims, St.held, Body.held, St.executing, hpc, List.count_append,
        List.drop_zero]
      omega
    rw [hnew]
    by_cases hb : b ∈ vs
    · exact hr.2 b hb
    · rw [List.count_eq_zero.mpr hb]
      exact h.claims b
  · cases hs

/-- A result is forwarded to what the callable returned for it. -/
theorem Made.forward {results returned : List Addr} {i : Nat} {r v : Addr}
    (h : Made w results returned i) (hr : results[i]? = some r) (hv : returned[i]? = some v) :
    Made (forwardTo w r v) results returned (i + 1) := by
  refine ⟨h.nodup, fun x hx => ?_, fun x hx => ?_, fun k x hk => ?_⟩
  · show (((w.heap.forwardTo r v).1).cell x).mKind = _
    rw [Heap.forwardTo_mKind]
    exact h.kind x hx
  · show x < (w.heap.forwardTo r v).1.next
    rw [Heap.forwardTo_next]
    exact h.lt_next x hx
  · show Function.update w.fwd r (some v) x = _
    obtain ⟨hi, hri⟩ := List.getElem?_eq_some_iff.mp hr
    obtain ⟨hkl, hxk⟩ := List.getElem?_eq_some_iff.mp hk
    by_cases hik : k = i
    · subst hik
      rw [hr] at hk
      cases hk
      rw [Function.update_self, if_pos (Nat.lt_succ_self k), hv]
    · have hne : x ≠ r := fun he => hik ((List.Nodup.getElem_inj_iff h.nodup).mp
        (hxk.trans (he.trans hri.symm)))
      rw [Function.update_of_ne hne, h.fwd k x hk]
      by_cases hlt : k < i
      · rw [if_pos hlt, if_pos (Nat.lt_succ_of_lt hlt)]
      · rw [if_neg hlt, if_neg (by omega)]

theorem Inv.forward_cons (h : Inv s) {call : Call Addr} {i : Nat} {r v : Addr}
    (hpc : s.pc = .deferred call (.forwarding i)) (hr : s.results[i]? = some r)
    (hv : s.returned[i]? = some v) :
    Inv { s with world := forwardTo s.world r v, pc := .deferred call (.forwarding (i + 1)) } := by
  have hp := h.place
  rw [hpc] at hp
  have hd : s.Deferred call (.forwarding i) := hp
  obtain ⟨hcalls, hlen, -, hmade⟩ := hd.body
  obtain ⟨hi, hri⟩ := List.getElem?_eq_some_iff.mp hr
  obtain ⟨hi', hvi⟩ := List.getElem?_eq_some_iff.mp hv
  have hrmem : r ∈ s.results := List.mem_of_getElem? hr
  have hdrop : s.returned.drop i = v :: s.returned.drop (i + 1) := by
    rw [List.drop_eq_getElem_cons hi', hvi]
  have hheld : s.held = s.args ++ s.results ++ v :: s.returned.drop (i + 1) := by
    simp only [St.held, Body.held, hpc, hdrop]
  have hrheld : 0 < s.world.handles r :=
    h.held (claims_pos (by
      rw [hheld]
      exact List.mem_append_left _ (List.mem_append_right _ hrmem)))
  have hvheld : 0 < s.world.handles v :=
    h.held (claims_pos (by rw [hheld]; exact List.mem_append_right _ List.mem_cons_self))
  have hkind := hmade.kind r hrmem
  have hfwd : s.world.fwd r = none := by
    rw [hmade.fwd i r hr, if_neg (Nat.lt_irrefl i)]
  have hw : Forward.Inv (forwardTo s.world r v) :=
    h.world.called hkind hfwd (h.world.held hrheld) hvheld
  have hg : Heap.Grows s.world.heap (forwardTo s.world r v).heap :=
    .forwardTo (h.world.links.unavailable hkind hfwd)
  have hnew := h.deferred (w := forwardTo s.world r v) (p := .forwarding (i + 1)) hd hg
    ⟨hcalls, hlen, by rw [← hlen]; exact hi', hmade.forward hr hv⟩ fun _ => nofun
  refine ⟨hw, fun b => ?_, fun b hb => Nat.lt_of_lt_of_le (h.arguments b hb) hg.next,
    h.unavailable, ?_⟩
  · have hclaim := h.claims b
    have hsplit : s.claims b = St.claims { s with
        world := forwardTo s.world r v, pc := .deferred call (.forwarding (i + 1)) } b +
          [v].count b := by
      simp only [St.claims, St.held, Body.held, St.executing, hpc, hdrop, List.count_append,
        List.count_cons, List.count_nil]
      omega
    show _ ≤ Function.update s.world.handles v (s.world.handles v - 1) b
    rw [hsplit, List.count_singleton] at hclaim
    by_cases hb : b = v
    · subst hb
      rw [Function.update_self]
      simp only [BEq.rfl, if_true] at hclaim
      omega
    · rw [Function.update_of_ne hb]
      exact Nat.le_trans (Nat.le_add_right _ _) hclaim
  · exact {
      scanned := hnew.scanned
      args := hnew.args
      results := hnew.results
      calls := hnew.calls
      ready := hnew.ready
      listed := hnew.listed
      started := hnew.started
      body := hnew.body }

/-- The last loop has ended. -/
theorem Inv.forward_nil (h : Inv s) {call : Call Addr} {i : Nat}
    (hpc : s.pc = .deferred call (.forwarding i))
    (hend : ∀ r v, s.results[i]? = some r → s.returned[i]? ≠ some v) :
    Inv { s with pc := .deferred call (.dropping (s.args ++ s.results)) } := by
  have hp := h.place
  rw [hpc] at hp
  have hd : s.Deferred call (.forwarding i) := hp
  obtain ⟨hcalls, hlen, hle, hmade⟩ := hd.body
  have hi : i = s.numResults := by
    refine Nat.le_antisymm hle (Nat.le_of_not_lt fun hlt => ?_)
    have hr : i < s.results.length := by rw [hd.results]; exact hlt
    have hv : i < s.returned.length := by rw [hlen]; exact hlt
    exact hend _ _ (List.getElem?_eq_getElem hr) (List.getElem?_eq_getElem hv)
  have hheld : ∀ b, (s.args ++ s.results).count b ≤ s.held.count b := by
    intro b
    simp only [St.held, Body.held, hpc, List.count_append]
    exact Nat.le_add_right _ _
  have hex : St.executing { s with pc := .deferred call (.dropping (s.args ++ s.results)) } =
      s.executing := by
    simp only [St.executing, hpc]
  exact h.of_held rfl rfl hheld (fun he => hex ▸ he) h.unavailable {
    scanned := hd.scanned
    args := hd.args
    results := hd.results
    calls := hd.calls
    ready := hd.ready
    listed := hd.listed
    started := fun _ => nofun
    body := ⟨hcalls, hlen, hi ▸ hmade⟩ }

theorem Inv.forward (h : Inv s) (hs : forward s = some s') : Inv s' := by
  unfold NativeFunction.forward at hs
  split at hs
  · rename_i call i hpc
    split at hs
    · rename_i r v hr hv
      cases hs
      exact h.forward_cons hpc hr hv
    · rename_i hend
      cases hs
      exact h.forward_nil hpc hend
  · cases hs

/-- The closure drops a reference. -/
theorem Inv.drop (h : Inv s) (hs : drop s = some s') : Inv s' := by
  unfold NativeFunction.drop at hs
  split at hs
  · rename_i call a refs hpc
    obtain ⟨w, hw, rfl⟩ := Option.map_eq_some_iff.mp hs
    have hp := h.place
    rw [hpc] at hp
    have hd : s.Deferred call (.dropping (a :: refs)) := hp
    obtain ⟨hfwd, hhandles⟩ := dropRef_world hw
    have hg := h.world.grows hw
    obtain ⟨hcalls, hlen, hmade⟩ := hd.body
    have hnew := h.deferred (w := w) (p := .dropping refs) hd hg
      ⟨hcalls, hlen, hmade.mono hg fun r _ => by rw [hfwd]⟩ fun _ => nofun
    refine ⟨h.world.preserved hw, fun b => ?_,
      fun b hb => Nat.lt_of_lt_of_le (h.arguments b hb) hg.next, h.unavailable, {
        scanned := hnew.scanned
        args := hnew.args
        results := hnew.results
        calls := hnew.calls
        ready := hnew.ready
        listed := hnew.listed
        started := hnew.started
        body := hnew.body }⟩
    have hclaim := h.claims b
    have hsplit : s.claims b =
        St.claims { s with world := w, pc := .deferred call (.dropping refs) } b + [a].count b := by
      simp only [St.claims, St.held, Body.held, St.executing, hpc, List.count_cons, List.count_nil]
      omega
    rw [hsplit, List.count_singleton] at hclaim
    show _ ≤ w.handles b
    rw [hhandles]
    by_cases hb : b = a
    · subst hb
      rw [Function.update_self]
      simp only [BEq.rfl, if_true] at hclaim
      omega
    · rw [Function.update_of_ne hb]
      exact Nat.le_trans (Nat.le_add_right _ _) hclaim
  · cases hs

/-- The callable is called with the arguments. -/
theorem Inv.direct (h : Inv s) (hpc : s.pc = .direct) :
    Inv { s with pc := .running, calls := s.calls + 1 } := by
  have hp := h.place
  rw [hpc] at hp
  have hex : s.executing = true := by simp only [St.executing, hpc]
  have hone : s.calls + 1 = 1 := by rw [hp.1]
  exact h.of_held rfl rfl (fun b => Nat.zero_le _) (fun _ => hex) h.unavailable ⟨hone, hp.2⟩

theorem Inv.execute (h : Inv s) (hs : execute s = some s') : Inv s' := by
  cases hpc : s.pc with
  | scan rest =>
    cases rest with
    | nil => exact h.scan_nil hpc hs
    | cons a rest =>
      simp only [NativeFunction.execute, hpc] at hs
      cases hs
      exact h.scan_cons hpc
  | direct =>
    simp only [NativeFunction.execute, hpc] at hs
    cases hs
    exact h.direct hpc
  | running =>
    simp only [NativeFunction.execute, hpc] at hs
    cases hs
  | returned =>
    simp only [NativeFunction.execute, hpc] at hs
    cases hs
  | formRef rest =>
    cases rest with
    | nil =>
      simp only [NativeFunction.execute, hpc] at hs
      cases hs
      exact h.formRef_nil hpc
    | cons a rest =>
      simp only [NativeFunction.execute, hpc] at hs
      obtain ⟨w, hw, rfl⟩ := Option.map_eq_some_iff.mp hs
      exact h.formRef hpc hw
  | make left =>
    cases left with
    | zero =>
      simp only [NativeFunction.execute, hpc] at hs
      cases hs
      exact h.make_zero hpc
    | succ left =>
      simp only [NativeFunction.execute, hpc] at hs
      obtain ⟨w, hw, rfl⟩ := Option.map_eq_some_iff.mp hs
      exact h.make hpc hw
  | deferred call body =>
    simp only [NativeFunction.execute, hpc] at hs
    obtain ⟨call', hc, rfl⟩ := Option.map_eq_some_iff.mp hs
    exact h.advance hpc hc

theorem Inv.step (h : Inv s) {l : Label V E} (hs : step s l = some s') : Inv s' := by
  cases l with
  | world l => exact h.world_step hs
  | execute => exact h.execute hs
  | fire j => exact h.fire hs
  | returns vs =>
    obtain ⟨hr, hs⟩ := Option.ite_none_right_eq_some.mp hs
    exact h.returns hr hs
  | forward => exact h.forward hs
  | drop => exact h.drop hs

variable {arguments : List Addr} {numResults : Nat}

theorem inv_init (hw : Forward.Inv w) (hargs : ∀ a ∈ arguments, 0 < w.handles a) :
    Inv (init w arguments numResults) where
  world := hw
  claims a := by
    have hheld : (init w arguments numResults).held = [] := rfl
    have hex : (init w arguments numResults).executing = true := rfl
    rw [St.claims, hheld, hex, Bool.true_and, List.count_nil, Nat.zero_add]
    by_cases ha : a ∈ arguments
    · rw [decide_eq_true (p := a ∈ (init w arguments numResults).arguments) ha]
      exact hargs a ha
    · rw [decide_eq_false (p := a ∈ (init w arguments numResults).arguments) ha]
      exact Nat.zero_le _
  arguments a ha := hw.ok.wf.lt_next (hw.held (hargs a ha))
  unavailable := nofun
  place := ⟨rfl, rfl, rfl, fun a ha => .inr (.inr ha), fun a ha => ha⟩

theorem inv_reach (hw : Forward.Inv w) (hargs : ∀ a ∈ arguments, 0 < w.handles a)
    (hs : (sys w arguments numResults).Reach Any s) : Inv s := by
  refine hs.invariant ?_ ?_
  · rintro s rfl
    exact inv_init hw hargs
  · intro s l s' h _ hn
    exact h.step hn

end Steps

/-! ## The end of a call -/

/-- The steps that the closure has still to take, at most. -/
def Body.todo (numArgs numResults : Nat) : Body → Nat
  | .idle => numArgs + 2 * numResults + 3
  | .running => numArgs + 2 * numResults + 2
  | .forwarding i => numArgs + numResults + (numResults - i) + 1
  | .dropping refs => refs.length

/-- The steps that the call has still to take, at most; the callable makes its own. -/
def St.todo (s : St V E) : Nat :=
  let closure := s.arguments.length + 2 * s.numResults + 3
  let deferred := 9 * s.unavailableArgs.length + 10 + closure
  match s.pc with
  | .scan rest => 10 * rest.length + deferred + s.numResults + s.arguments.length + 3
  | .formRef rest => rest.length + deferred + s.numResults + 2
  | .make left => left + deferred + 1
  | .deferred call body => call.todo + body.todo s.arguments.length s.numResults
  | .direct => 2
  | .running => 1
  | .returned => 0

/-- The callable runs. -/
def St.inCallable (s : St V E) : Bool :=
  match s.pc with
  | .running => true
  | .deferred _ .running => true
  | _ => false

/-- The call and all that it left behind has ended. -/
def St.Finished (s : St V E) : Prop :=
  match s.pc with
  | .returned => True
  | .deferred call (.dropping []) => call.Finished
  | _ => False

/-- What the callable returned is in the results, or forwarded to them. -/
def St.Delivered (s : St V E) : Prop :=
  match s.pc with
  | .returned => True
  | .deferred _ (.dropping _) => True
  | _ => False

/-- A step of the call. -/
inductive OwnStep (s s' : St V E) : Prop
  | execute : execute s = some s' → OwnStep s s'
  | fire (j : Nat) : fire s j = some s' → OwnStep s s'
  | returns (vs : List Addr) : returns s vs = some s' → OwnStep s s'
  | forward : forward s = some s' → OwnStep s s'
  | drop : drop s = some s' → OwnStep s s'

section Progress

variable {s s' : St V E} {w : Forward.St V E} {a : Addr}

theorem exists_forward {call : Call Addr} {i : Nat} (hpc : s.pc = .deferred call (.forwarding i)) :
    ∃ s', OwnStep s s' := by
  have hsome : ∃ s', forward s = some s' := by
    simp only [forward, hpc]
    split
    · exact ⟨_, rfl⟩
    · exact ⟨_, rfl⟩
  obtain ⟨s', hs⟩ := hsome
  exact ⟨s', .forward hs⟩

theorem exists_addRef (ha : 0 < w.handles a) : ∃ w', Forward.step w (.addRef a) = some w' :=
  ⟨_, if_pos ha⟩

theorem exists_dropRef (ha : 0 < w.handles a) : ∃ w', Forward.step w (.dropRef a) = some w' :=
  ⟨_, if_pos ha⟩

theorem exists_make (w : Forward.St V E) : ∃ w', make w = some w' := by
  unfold make
  simp only [Forward.step, implies_true, if_true, Option.bind_some, Function.update_self,
    Nat.succ_pos]
  exact ⟨_, rfl⟩

/-- The closure or a callback can go on, when all arguments are available. -/
theorem progress_deferred (h : Inv s) (hall : ∀ a ∈ s.arguments, s.isAvailable a = true)
    {call : Call Addr} {body : Body} (hpc : s.pc = .deferred call body) :
    s.Finished ∨ s.inCallable = true ∨ ∃ s', OwnStep s s' := by
  have hp := h.place
  rw [hpc] at hp
  have hd : s.Deferred call body := hp
  rcases RunWhenReady.progress hd.listed fun v hv => hall v (h.unavailable v hv) with hf | ha |
    ⟨j, hj⟩
  · have hcalls := (hd.ready.finished hf).1
    have hbody := hd.body
    cases body with
    | idle =>
      rw [hd.calls, hbody.1] at hcalls
      cases hcalls
    | running => exact .inr (.inl (by simp only [St.inCallable, hpc]))
    | forwarding i => exact .inr (.inr (exists_forward hpc))
    | dropping refs =>
      cases refs with
      | nil =>
        left
        simp only [St.Finished, hpc]
        exact hf
      | cons a refs =>
        have hheld : a ∈ s.held := by simp only [St.held, Body.held, hpc, List.mem_cons, true_or]
        obtain ⟨w, hw⟩ := exists_dropRef (h.held (claims_pos hheld))
        refine .inr (.inr ⟨{ s with world := w, pc := .deferred call (.dropping refs) }, .drop ?_⟩)
        simp only [drop, hpc, hw, Option.map_some]
  · obtain ⟨call', hc⟩ := Option.isSome_iff_exists.mp ha
    refine .inr (.inr ⟨{ s with pc := .deferred call' body }, .execute ?_⟩)
    simp only [execute, hpc, hc, Option.map_some]
  · obtain ⟨call', hc⟩ := Option.isSome_iff_exists.mp hj
    by_cases hrun : call.callbacks[j]? = some .running
    · cases body with
      | idle => exact absurd rfl (hd.started (List.mem_of_getElem? hrun))
      | running => exact .inr (.inl (by simp only [St.inCallable, hpc]))
      | forwarding i => exact .inr (.inr (exists_forward hpc))
      | dropping refs =>
        refine .inr (.inr ⟨{ s with pc := .deferred call' (.dropping refs) }, .fire j ?_⟩)
        simp only [fire, hpc, hrun, hc, Option.map_some]
    · have hsome : ∃ s', fire s j = some s' := by
        simp only [fire, hpc]
        split
        · exact ⟨_, by rw [hc]; rfl⟩
        · exact ⟨_, by rw [hc]; rfl⟩
        · rename_i hrunning _
          exact absurd hrunning hrun
        · exact ⟨_, by rw [hc]; rfl⟩
      obtain ⟨s', hs⟩ := hsome
      exact .inr (.inr ⟨s', .fire j hs⟩)

/-- A call whose arguments are all available ends, if its callable does. -/
theorem progress (h : Inv s) (hall : ∀ a ∈ s.arguments, s.isAvailable a = true) :
    s.Finished ∨ s.inCallable = true ∨ ∃ s', OwnStep s s' := by
  have hexecute : (∃ s', execute s = some s') → s.Finished ∨ s.inCallable = true ∨ ∃ s', OwnStep s
    s' :=
    fun ⟨s', hs⟩ => .inr (.inr ⟨s', .execute hs⟩)
  have hp := h.place
  cases hpc : s.pc with
  | scan rest =>
    refine hexecute ?_
    cases rest with
    | nil =>
      simp only [execute, hpc]
      split
      · exact ⟨_, rfl⟩
      · exact ⟨_, rfl⟩
    | cons a rest => exact ⟨_, by simp only [execute, hpc]; rfl⟩
  | direct => exact hexecute ⟨_, by simp only [execute, hpc]; rfl⟩
  | running => exact .inr (.inl (by simp only [St.inCallable, hpc]))
  | returned => exact .inl (by simp only [St.Finished, hpc])
  | formRef rest =>
    refine hexecute ?_
    cases rest with
    | nil => exact ⟨_, by simp only [execute, hpc]; rfl⟩
    | cons a rest =>
      rw [hpc] at hp
      have harg : a ∈ s.arguments := hp.2.2.1 ▸ List.mem_append_right _ List.mem_cons_self
      have hclaim : 0 < s.claims a := by
        simp only [St.claims, St.executing, hpc, harg, decide_true, Bool.and_self, Bool.toNat_true]
        omega
      obtain ⟨w, hw⟩ := exists_addRef (h.held hclaim)
      exact ⟨_, by simp only [execute, hpc, hw, Option.map_some]; rfl⟩
  | make left =>
    refine hexecute ?_
    cases left with
    | zero => exact ⟨_, by simp only [execute, hpc]; rfl⟩
    | succ left =>
      obtain ⟨w, hw⟩ := exists_make s.world
      exact ⟨_, by simp only [execute, hpc, hw, Option.map_some]; rfl⟩
  | deferred call body => exact progress_deferred h hall hpc

/-- Every step of the call brings its end nearer. -/
theorem todo_lt (h : Inv s) (hs : OwnStep s s') : s'.todo < s.todo := by
  have hp := h.place
  rcases hs with hs | ⟨j, hs⟩ | ⟨vs, hs⟩ | hs | hs
  · cases hpc : s.pc with
    | scan rest =>
      cases rest with
      | nil =>
        simp only [execute, hpc] at hs
        split at hs <;> cases hs <;> simp only [St.todo, hpc, List.length_nil] <;> omega
      | cons a rest =>
        simp only [execute, hpc] at hs
        cases hs
        simp only [St.todo, hpc, List.length_cons]
        split
        · omega
        · rw [List.length_append, List.length_singleton]
          omega
    | direct =>
      simp only [execute, hpc] at hs
      cases hs
      simp only [St.todo, hpc]
      omega
    | running =>
      simp only [execute, hpc] at hs
      cases hs
    | returned =>
      simp only [execute, hpc] at hs
      cases hs
    | formRef rest =>
      cases rest with
      | nil =>
        simp only [execute, hpc] at hs
        cases hs
        simp only [St.todo, hpc, List.length_nil]
        omega
      | cons a rest =>
        simp only [execute, hpc] at hs
        obtain ⟨w, -, rfl⟩ := Option.map_eq_some_iff.mp hs
        simp only [St.todo, hpc, List.length_cons]
        omega
    | make left =>
      cases left with
      | zero =>
        simp only [execute, hpc] at hs
        cases hs
        simp only [St.todo, hpc, Call.todo, Call.start, Body.todo, List.length_nil, List.map_nil,
          List.sum_nil]
        omega
      | succ left =>
        simp only [execute, hpc] at hs
        obtain ⟨w, -, rfl⟩ := Option.map_eq_some_iff.mp hs
        simp only [St.todo, hpc]
        omega
    | deferred call body =>
      simp only [execute, hpc] at hs
      obtain ⟨call', hc, rfl⟩ := Option.map_eq_some_iff.mp hs
      have hlt := RunWhenReady.advance_todo hc
      simp only [St.todo, hpc]
      omega
  · unfold fire at hs
    split at hs
    · rename_i call body hpc
      rw [hpc] at hp
      have hd : s.Deferred call body := hp
      split at hs
      · rename_i hj
        obtain ⟨call', hc, rfl⟩ := Option.map_eq_some_iff.mp hs
        obtain ⟨-, rfl⟩ := hd.idle hj
        have hlt := RunWhenReady.fire_todo hc
        simp only [St.todo, hpc, Body.todo]
        omega
      · obtain ⟨call', hc, rfl⟩ := Option.map_eq_some_iff.mp hs
        have hlt := RunWhenReady.fire_todo hc
        simp only [St.todo, hpc]
        omega
      · cases hs
      · obtain ⟨call', hc, rfl⟩ := Option.map_eq_some_iff.mp hs
        have hlt := RunWhenReady.fire_todo hc
        simp only [St.todo, hpc]
        omega
    · cases hs
  · unfold returns at hs
    split at hs
    · rename_i hpc
      cases hs
      simp only [St.todo, hpc]
      omega
    · rename_i call hpc
      cases hs
      simp only [St.todo, hpc, Body.todo]
      omega
    · cases hs
  · unfold forward at hs
    split at hs
    · rename_i call i hpc
      rw [hpc] at hp
      have hd : s.Deferred call (.forwarding i) := hp
      split at hs
      · rename_i r v hr hv
        cases hs
        have hi := (List.getElem?_eq_some_iff.mp hr).1
        rw [hd.results] at hi
        simp only [St.todo, hpc, Body.todo]
        omega
      · cases hs
        have hargs : s.args.length = s.arguments.length := by rw [hd.args]
        have hresults := hd.results
        simp only [St.todo, hpc, Body.todo, List.length_append]
        omega
    · cases hs
  · unfold drop at hs
    split at hs
    · rename_i call b refs hpc
      obtain ⟨w, -, rfl⟩ := Option.map_eq_some_iff.mp hs
      simp only [St.todo, hpc, Body.todo, List.length_cons]
      omega
    · cases hs

end Progress

/-! ## What is delivered -/

/-- The result `r` reads as the value `v` that the callable returned: as the end of `v`'s chain, and
as `v` itself while that is available and referenced. -/
structure Reads (w : Forward.St V E) (r v : Addr) : Prop where
  chain : ∃ c, Forward.ChainEnd w.heap w.fwd v c ∧ (w.heap.cell c).state = (w.heap.cell r).state ∧
    w.heap.value r = w.heap.value c
  same : w.heap.isAvailable v = true → 0 < w.heap.refs v →
    (w.heap.cell v).state = (w.heap.cell r).state ∧ w.heap.value r = w.heap.value v

/-- A call of `Execute`. -/
structure Correct (s : St V E) : Prop where
  once : s.calls ≤ 1
  ready : s.calls ≠ 0 → ∀ a ∈ s.arguments, s.isAvailable a = true
  finished : s.Finished → s.calls = 1 ∧ s.Delivered
  ends : (∀ a ∈ s.arguments, s.isAvailable a = true) →
    s.Finished ∨ s.inCallable = true ∨ ∃ s', OwnStep s s'
  todo : ∀ s', OwnStep s s' → s'.todo < s.todo
  /-- One result for each value that the callable returned. -/
  length : s.Delivered → s.results.length = s.numResults ∧ s.returned.length = s.numResults
  available : s.Delivered → s.world.Quiescent → ∀ (k : Nat) (r v : Addr), s.results[k]? = some r →
    s.returned[k]? = some v → (s.isAvailable r = true ↔ s.isAvailable v = true)
  delivered : s.Delivered → ∀ (k : Nat) (r v : Addr), s.results[k]? = some r → s.returned[k]? =
    some v →
    s.isAvailable r = true → 0 < s.world.heap.refs r → Reads s.world r v

section Result

variable {s : St V E} {w : Forward.St V E} {arguments : List Addr} {numResults : Nat}

theorem Inv.calls (h : Inv s) :
    s.calls ≤ 1 ∧ (s.calls ≠ 0 → ∀ a ∈ s.arguments, s.isAvailable a = true) := by
  have hp := h.place
  cases hpc : s.pc with
  | scan rest =>
    rw [hpc] at hp
    exact ⟨hp.1.trans_le (Nat.zero_le 1), fun hne => absurd hp.1 hne⟩
  | direct =>
    rw [hpc] at hp
    exact ⟨hp.1.trans_le (Nat.zero_le 1), fun hne => absurd hp.1 hne⟩
  | running =>
    rw [hpc] at hp
    exact ⟨hp.1.le, fun _ => hp.2⟩
  | returned =>
    rw [hpc] at hp
    exact ⟨hp.1.le, fun _ => hp.2.1⟩
  | formRef rest =>
    rw [hpc] at hp
    exact ⟨hp.1.trans_le (Nat.zero_le 1), fun hne => absurd hp.1 hne⟩
  | make left =>
    rw [hpc] at hp
    exact ⟨hp.1.trans_le (Nat.zero_le 1), fun hne => absurd hp.1 hne⟩
  | deferred call body =>
    rw [hpc] at hp
    have hd : s.Deferred call body := hp
    obtain ⟨hle, hready⟩ := hd.ready.calls
    rw [hd.calls] at hle hready
    refine ⟨hle, fun hne a ha => ?_⟩
    rcases hd.scanned a ha with hav | hun | hrest
    · exact hav
    · exact hready hne a hun
    · cases hrest

theorem Inv.finished (h : Inv s) (hf : s.Finished) : s.calls = 1 ∧ s.Delivered := by
  have hp := h.place
  unfold St.Finished at hf
  split at hf
  · rename_i hpc
    rw [hpc] at hp
    exact ⟨hp.1, by simp only [St.Delivered, hpc]⟩
  · rename_i call hpc
    rw [hpc] at hp
    have hd : s.Deferred call (.dropping []) := hp
    exact ⟨hd.body.1, by simp only [St.Delivered, hpc]⟩
  · exact hf.elim

/-- A result is what the callable returned, or was forwarded to it. -/
theorem Inv.forwarded (h : Inv s) (hdel : s.Delivered) :
    s.results.length = s.numResults ∧ s.returned.length = s.numResults ∧
      ∀ (k : Nat) (r v : Addr), s.results[k]? = some r → s.returned[k]? = some v →
        r = v ∨ s.world.fwd r = some v := by
  have hp := h.place
  unfold St.Delivered at hdel
  split at hdel
  · rename_i hpc
    rw [hpc] at hp
    obtain ⟨-, -, hsame, hlen⟩ := hp
    refine ⟨hsame ▸ hlen, hlen, fun k r v hr hv => .inl ?_⟩
    rw [hsame, hv] at hr
    exact (Option.some.inj hr).symm
  · rename_i call refs hpc
    rw [hpc] at hp
    have hd : s.Deferred call (.dropping refs) := hp
    obtain ⟨-, hlen, hmade⟩ := hd.body
    refine ⟨hd.results, hlen, fun k r v hr hv => .inr ?_⟩
    have hk : k < s.numResults := hlen ▸ (List.getElem?_eq_some_iff.mp hv).1
    rw [hmade.fwd k r hr, if_pos hk, hv]
  · exact hdel.elim

/-- What an available value that was returned, or a value forwarded to it, reads as. -/
theorem reads_of (hw : Forward.Inv w) {r v : Addr} (h : r = v ∨ w.fwd r = some v)
    (ha : w.heap.isAvailable r = true) (hr : 0 < w.heap.refs r) : Reads w r v := by
  rcases h with rfl | hf
  · exact ⟨hw.reads ha hr, fun _ _ => ⟨rfl, rfl⟩⟩
  · obtain ⟨c, hc, hst, hval⟩ := hw.forwarded hf ha hr
    refine ⟨⟨c, hc, hst, hval⟩, fun hav hv => ?_⟩
    obtain ⟨d, hd, hdst, hdval⟩ := hw.reads hav hv
    obtain rfl := hw.links.chainEnd_unique hc hd
    exact ⟨hdst.symm.trans hst, hval.trans hdval.symm⟩

theorem Inv.correct (h : Inv s) : Correct s := by
  have hforward := h.forwarded
  refine ⟨h.calls.1, h.calls.2, h.finished, progress h, fun s' hs => todo_lt h hs,
    fun hd => ⟨(hforward hd).1, (hforward hd).2.1⟩, fun hd hq k r v hr hv => ?_,
    fun hd k r v hr hv ha hpos => reads_of h.world ((hforward hd).2.2 k r v hr hv) ha hpos⟩
  rcases (hforward hd).2.2 k r v hr hv with rfl | hf
  · exact Iff.rfl
  · exact h.world.available_iff hq hf

/-- **In every run of `Execute` the callable is called once, with its arguments available, and each
result reads as the value that the callable returned for it, once that is available and no closure
is running.** -/
theorem execute_correct (hw : (Forward.sys V E).Reach Any w)
    (hargs : ∀ a ∈ arguments, 0 < w.handles a)
    (hs : (sys w arguments numResults).Reach Any s) : Correct s :=
  (inv_reach (Forward.reach_inv hw) hargs hs).correct

/-- A concrete value is made. -/
def oneValue : List (Forward.Label Nat Unit) :=
  [.make .kConcrete .kUnconstructed 7 (some (.ok 2))]

/-- The argument is resolved after the call; the callable returns a value that it has just made, and
resolves it later. -/
def lateResult : List (Label Nat Unit) :=
  [.execute, .execute, .execute, .execute, .execute, .execute, .execute, .execute, .execute,
    .execute,
    .world (.emplace 0), .fire 0, .fire 0, .fire 0,
    .world (.make .kConcrete .kUnconstructed 7 (some (.ok 5))), .world (.addRef 2), .returns [2],
    .forward, .forward, .world (.emplace 2), .world (.run 0), .world (.run 0)]

/-- The state before the call. -/
def madeOne : Forward.St Nat Unit :=
  (runLabels Forward.step Forward.start oneValue).getD Forward.start

/-- The result is available, and is what the callable returned. -/
theorem execute_correct_late : ∃ s : St Nat Unit, s.calls = 1 ∧ s.results = [1] ∧ s.returned = [2] ∧
    s.world.heap.value 1 = some (.ok 5) ∧ Correct s := by
  have hw : (Forward.sys Nat Unit).Reach Any madeOne :=
    reach_runLabels (fun _ => True) (.init rfl) oneValue (fun _ _ => trivial) rfl
  have hargs : ∀ a ∈ [0], 0 < madeOne.handles a := by decide
  have hr : ∀ s, runLabels step (init madeOne [0] 1) lateResult = some s → Correct s := fun s hs =>
    execute_correct hw hargs
      (reach_runLabels (fun _ => True) (.init rfl) lateResult (fun _ _ => trivial) hs)
  exact ⟨_, rfl, rfl, rfl, rfl, hr _ rfl⟩

end Result

end NativeFunction

end AsyncLib
