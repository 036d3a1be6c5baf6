import AsyncLib.Runtime.Evaluation
import AsyncLib.Runtime.Frames
import AsyncLib.Runtime.Lifetime

/-!
# Every access is to a living value

The executor takes its references to the arguments before `Execute` returns. From then on the caller
may drop its own ones, and the results that were delivered, at any time.

* `Op.accesses`: the values that an operation reads or writes.
* `callerStep`, `callerSys`: the executor, and a caller who drops its arguments after `Execute` has
  returned.
* `accesses_alive`: in every run in which the caller drops results only after their delivery, and of
  every graph whose start results all have a consumer, whatever the next operation of a thread
  accesses is alive, and so is what a promise or an entry of `results` refers to.

The entry of `results` of a start result without a consumer takes over the reference of the caller to
the argument; such a graph has no run here.
-/

namespace AsyncLib

namespace GraphExecutor

open AsyncValue Sys Agenda AsyncGraph

variable {F V E : Type} {g : AsyncGraph F} {start : Nat}

/-! ## Accesses -/

/-- The value at `a`, and the one behind it if it is an indirect value that was forwarded. -/
def behind (h : Heap V E Closure) (a : Addr) : List Addr := a :: (h.cell a).mValue.toList

/-- The values that an operation reads or writes when it is executed. -/
def Op.accesses (g : AsyncGraph F) (start : Nat) (sh : Shared V E) : Op → List Addr
  | .pseudoKernel j =>
    if j = 0 ∨ g.userCount (g.resultReg start j) = 0 then []
    else (sh.regs (g.resultReg start j)).ptr.toList
  | .pseudoAndThen _ a => [a]
  | .addArgs _ (r :: _) _ _ => (sh.regs r).ptr.toList
  | .installIndirect r ind _ => ind :: (sh.regs r).ptr.toList
  -- the error that is passed on is one of the arguments
  | .callKernel _ args _ => args
  | .dropRef a => [a]
  | .processUsedBy _ _ v => [v]
  | .andThen _ _ v => [v]
  | .setAsyncValuePtr _ _ v => [v]
  | .casAsyncValuePtr _ _ v => [v]
  | .forwardExisting _ _ i v => [i, v]
  | .forwardTo i v => [i, v]
  | .getResult r => (sh.regs r).ptr.toList
  | _ => []

/-- Whatever the threads, the resolving threads and the caller are going to access is alive. -/
structure AccessesAlive (g : AsyncGraph F) (start : Nat) (s : St V E) : Prop where
  ops : ∀ op, s.Executes op → ∀ a ∈ op.accesses g start s.sh, ∀ b ∈ behind s.sh.heap a,
    0 < s.sh.heap.refs b
  promised : ∀ a, s.sh.promised a = true → 0 < s.sh.heap.refs a
  held : ∀ r a, s.sh.results r = .held a → ∀ b ∈ behind s.sh.heap a, 0 < s.sh.heap.refs b

/-- `ProcessArgumentsAsPseudoKernel`, which only `Execute` calls. -/
def Op.isPseudo : Op → Bool
  | .pseudoKernel _ | .pseudoAndThen _ _ => true
  | _ => false

/-! ## The caller -/

/-- A step of the executor, or the caller drops its reference to the argument `j`. -/
inductive CallerLabel (V E : Type) where
  | step (l : Label V E)
  | dropArgument (j : Nat)

/-- The caller drops an argument after `Execute` has returned. No other code writes the entry of
`results` of a start register with a consumer: here it says that the argument was dropped. -/
def callerStep (g : AsyncGraph F) (start : Nat) (s : St V E) : CallerLabel V E → Option (St V E)
  | .step l => step g start s l
  | .dropArgument j =>
    let r := g.resultReg start j
    match s.sh.regs r with
    | .direct a =>
      if j < g.numResults start ∧ s.threads[0]? = some [] ∧ s.sh.results r = .empty then
        some { s with
          sh := { s.sh with
            heap := s.sh.heap.dropRef a 1, results := Function.update s.sh.results r .dropped } }
      else none
    | _ => none

/-- All runs of the graph `g` on `arguments`, with their caller. -/
def callerSys (g : AsyncGraph F) (start : Nat) (heap : Heap V E Closure) (promised : Addr → Bool)
    (arguments : List Addr) : Sys (St V E) (CallerLabel V E) :=
  Sys.ofFun (init g start heap promised arguments) (callerStep g start)

/-- The caller drops results only after their delivery. -/
def CallerDelivered (s : St V E) : CallerLabel V E → Prop
  | .step l => DropsDelivered s l
  | .dropArgument _ => True

/-- The closure of a start register is registered with the argument in that register. -/
def PseudoDirect (g : AsyncGraph F) (start : Nat) (sh : Shared V E) (B : Multiset Op) : Prop :=
  ∀ j a, .pseudoAndThen j a ∈ B → sh.regs (g.resultReg start j) = .direct a

section Accesses

variable {handles : Addr → Nat} {sh sh' : Shared V E} {A B R Q : Multiset Op}
  {old new net : List Op}

theorem pseudoAndThen_notMem_waiterOps (ws : List (Waiter Closure)) (j : Nat) (a : Addr) :
    Op.pseudoAndThen j a ∉ waiterOps start ws := by
  intro hop
  obtain ⟨w, -, hop⟩ := List.mem_flatMap.mp hop
  match w with
  | .forward i v => simp [waiterCode] at hop
  | .client (.setAndDecrease k i v) => simp [waiterCode] at hop
  | .client (.decrease i) => simp [waiterCode] at hop

/-- Only the pseudo kernel leads to a call of `AndThen` for a start register. -/
theorem Does.pseudoAndThen_new (hd : Does g start sh old sh' new net) {j : Nat} {a : Addr}
    (hop : .pseudoAndThen j a ∈ new) :
    old = [.pseudoKernel j] ∧ (sh.regs (g.resultReg start j)).ptr = some a := by
  cases hd with
  | pseudoWait hp =>
    cases List.mem_singleton.mp hop
    exact ⟨rfl, hp⟩
  | pseudoAndThen ha => exact absurd hop (pseudoAndThen_notMem_waiterOps _ j a)
  | andThen hv => exact absurd hop (pseudoAndThen_notMem_waiterOps _ j a)
  | @load r c v => cases c <;> simp [Cont.resume] at hop
  | @install r ind c => cases c <;> simp [Cont.resume] at hop
  | @discard r ind v c => cases c <;> simp [Cont.resume] at hop
  | call | callError =>
    rcases mem_afterCall hop with ⟨b, -, hop⟩ | ⟨i, v, -, hop⟩ <;> cases hop
  | forwardExisting | forwardTo | resolveConcrete | resolveIndirect =>
    rcases List.mem_append.mp hop with hop | hop
    · exact absurd hop (pseudoAndThen_notMem_waiterOps _ j a)
    · simp at hop
  | decrease => split at hop <;> simp at hop
  | enqueue => simp [taskFrame, Frame.ops] at hop
  | _ => simp at hop

theorem PseudoDirect.preserved (hd : Does g start sh old sh' new net)
    (hf : Flow g start sh (↑old + Q)) (hs : Slots g start sh (↑old + Q))
    (h : PseudoDirect g start sh (↑old + R)) : PseudoDirect g start sh' (↑new + R) := by
  intro j a hop
  refine (hd.reg_step hs _).direct ?_
  rcases Multiset.mem_add.mp hop with hop | hop
  · obtain ⟨rfl, hp⟩ := hd.pseudoAndThen_new (Multiset.mem_coe.mp hop)
    have hj : j < g.numResults start := hf.valid (.pseudoKernel j) (by simp)
    obtain ⟨b, hb⟩ := hs.starts _ (mem_resultsIndex.mpr ⟨j, hj, rfl⟩)
    rw [hb] at hp ⊢
    cases hp
    rfl
  · exact h j a (Multiset.mem_add.mpr (.inr hop))

/-! ## Living registers -/

/-- The value in a start register is alive while the caller keeps its argument. -/
theorem Counted.alive_start (hs : Slots g start sh A) (hc : Counted g start handles sh B) {r : Nat}
    {a : Addr} (hr : r ∈ g.resultsIndex start) (hslot : sh.results r ≠ .dropped)
    (ha : sh.regs r = .direct a) : 0 < sh.heap.refs a := by
  refine hc.pos_entry (hs.inRange r (by rw [ha]; simp)) ?_
  simp only [entryRefs, ha, Reg.ptr_direct, Option.elim_some, entryBase, if_pos hr, if_neg hslot,
    Pi.add_apply, Pi.single_eq_same]
  omega

/-- The value in a register that somebody is going to read is alive. -/
theorem Counted.alive_read (hs : Slots g start sh A) (hc : Counted g start handles sh B) (op : Op)
    (hop : op ∈ B) {r : Nat} (hr : 0 < op.reads r) {a : Addr} (ha : (sh.regs r).ptr = some a) :
    0 < sh.heap.refs a := by
  have hreg : sh.regs r ≠ .empty := by
    intro h
    rw [h] at ha
    cases ha
  refine hc.pos_entry (hs.inRange r hreg) ?_
  have := le_weight Op.reads r hop
  simp only [entryRefs, ha, Option.elim_some, Pi.add_apply, Pi.single_eq_same, uses]
  omega

/-- The value in an output register is alive until its entry of `results` is filled. -/
theorem Counted.alive_output (hw : g.Wired start) (hs : Slots g start sh A)
    (hc : Counted g start handles sh B) {r : Nat} (hr : r ∈ g.resultRegs)
    (hslot : sh.results r = .empty) {a : Addr} (ha : (sh.regs r).ptr = some a) :
    0 < sh.heap.refs a := by
  have hreg : sh.regs r ≠ .empty := by
    intro h
    rw [h] at ha
    cases ha
  refine hc.pos_entry (hs.inRange r hreg) ?_
  simp only [entryRefs, ha, Option.elim_some, Pi.add_apply, Pi.single_eq_same, entryBase, hslot,
    ((hw.mem_resultRegs r).mp hr).2, ↓reduceIte, reduceCtorEq]
  split <;> omega

/-- A value in an entry of `results` is alive. -/
theorem Counted.alive_held (hs : Slots g start sh A) (hc : Counted g start handles sh B) {r : Nat}
    {a : Addr} (ha : sh.results r = .held a) : 0 < sh.heap.refs a := by
  have hp := hs.held r a ha
  have hreg : sh.regs r ≠ .empty := (hs.output r (by rw [ha]; simp)).2
  refine hc.pos_entry (hs.inRange r hreg) ?_
  simp only [entryRefs, hp, Option.elim_some, Pi.add_apply, Pi.single_eq_same, entryBase, ha,
    slotRefs, reduceCtorEq, ↓reduceIte]
  split
  · simp
  · simp

/-- What an operation accesses is alive. The operations on the start registers need the references of
the caller. -/
theorem Op.accesses_pos (hw : g.Wired start) (hf : Flow g start sh A) (hs : Slots g start sh A)
    (hc : Counted g start handles sh B) (hp : PseudoDirect g start sh B) (op : Op) (hop : op ∈ B)
    (hA : op ∈ A)
    (hkept : op.isPseudo = true → ∀ r ∈ g.resultsIndex start, sh.results r ≠ .dropped) :
    ∀ a ∈ op.accesses g start sh, 0 < sh.heap.refs a := by
  have hvalid := hf.valid op hA
  have hrefs : ∀ a, 0 < op.refs g a → 0 < sh.heap.refs a := fun a => hc.pos_op op hop
  intro a ha
  cases op with
  | pseudoKernel j =>
    simp only [Op.accesses] at ha
    split at ha
    · cases ha
    · obtain ⟨b, hb⟩ := hs.starts _ (mem_resultsIndex.mpr ⟨j, hvalid, rfl⟩)
      rw [hb] at ha
      cases List.mem_singleton.mp ha
      have hr := mem_resultsIndex.mpr ⟨j, hvalid, rfl⟩
      exact hc.alive_start hs hr (hkept rfl _ hr) hb
  | pseudoAndThen j v =>
    cases List.mem_singleton.mp ha
    have hr := mem_resultsIndex.mpr ⟨j, hvalid, rfl⟩
    exact hc.alive_start hs hr (hkept rfl _ hr) (hp j a hop)
  | addArgs k todo args err =>
    cases todo with
    | nil => cases ha
    | cons r todo =>
      have hptr := Option.mem_toList.mp ha
      exact hc.alive_read hs (.addArgs k (r :: todo) args err) hop (by simp [Op.reads]) hptr
  | installIndirect r ind c =>
    rcases List.mem_cons.mp ha with rfl | ha
    · exact hrefs a (by simp [Op.refs])
    · have hptr := Option.mem_toList.mp ha
      cases c with
      | addArg k todo args err =>
        exact hc.alive_read hs (.installIndirect r ind (.addArg k todo args err)) hop
          (by simp [Op.reads]) hptr
      | takeResult q =>
        obtain ⟨rfl, hr⟩ : q = r ∧ r ∈ g.resultRegs := hvalid
        exact hc.alive_output hw hs hr (hs.empty_of_take _ hA (by simp [Op.take])) hptr
  | getResult r =>
    have hptr := Option.mem_toList.mp ha
    exact hc.alive_output hw hs hvalid (hs.empty_of_take _ hA (by simp [Op.take])) hptr
  | callKernel k args err => exact hrefs a (List.count_pos_iff.mpr ha)
  | forwardExisting k j i v =>
    simp only [Op.accesses, List.mem_cons, List.not_mem_nil, or_false] at ha
    rcases ha with rfl | rfl
    · exact hc.alive_installed hs (hs.existing k j a v hA)
    · exact hrefs a (by simp [Op.refs])
  | forwardTo i v =>
    simp only [Op.accesses, List.mem_cons, List.not_mem_nil, or_false] at ha
    rcases ha with rfl | rfl <;> exact hrefs a (by simp [Op.refs])
  | dropRef v | processUsedBy k j v | andThen k j v | setAsyncValuePtr k j v
  | casAsyncValuePtr k j v =>
    cases List.mem_singleton.mp ha
    exact hrefs a (by simp [Op.refs])
  | _ => cases ha

/-- What lies behind a living value is alive. -/
theorem alive_behind {own : Closure → Addr → Nat} {h : Heap V E Closure} {X : Addr → Nat}
    (hk : h.Ok own X) {a : Addr} (ha : 0 < h.refs a) : ∀ b ∈ behind h a, 0 < h.refs b := by
  intro b hb
  rcases List.mem_cons.mp hb with rfl | hb
  · exact ha
  · exact (hk.pos_of_points (Option.mem_toList.mp hb)).1

end Accesses

/-! ## The calling thread -/

/-- All frames of the other threads than the calling one. -/
def OtherFrames (P : Frame → Prop) (s : St V E) : Prop :=
  ∀ (t : Nat) st, t ≠ 0 → s.threads[t]? = some st → ∀ f ∈ st, P f

/-- The frame does not belong to `ProcessArgumentsAsPseudoKernel`. -/
def Frame.NoPseudo (f : Frame) : Prop := ∀ op ∈ f.code, op.isPseudo = false

section Threads

variable {s s' : St V E} {sh sh' : Shared V E}

theorem exec_noPseudo {c : Choice V E} {op : Op} {e : Effect}
    (he : exec g start sh c op = some (sh', e)) (hno : op.isPseudo = false) :
    ∀ op' ∈ e.code, op'.isPseudo = false := by
  intro op' hop
  have hcall : ∀ k args outs, op' ∈ afterCall k args outs → op'.isPseudo = false := by
    intro k args outs h
    rcases mem_afterCall h with ⟨b, -, rfl⟩ | ⟨i, v, -, rfl⟩ <;> rfl
  cases op with
  | pseudoKernel i | pseudoAndThen i a => cases hno
  | addArgs k todo args err =>
    cases todo with
    | nil =>
      cases he
      cases List.mem_singleton.mp hop
      rfl
    | cons r todo =>
      cases he
      simp only [getOrCreateAsyncValuePtr] at hop
      split at hop <;> cases List.mem_singleton.mp hop <;> rfl
  | getResult r =>
    cases he
    simp only [getOrCreateAsyncValuePtr] at hop
    split at hop
    · cases hop
    · cases List.mem_singleton.mp hop
      rfl
  | installIndirect r ind cont =>
    simp only [exec] at he
    cases cont with
    | addArg k todo args err =>
      split at he <;> cases he <;> cases List.mem_singleton.mp hop <;> rfl
    | takeResult q => split at he <;> cases he <;> cases hop
  | callKernel k args err =>
    cases err with
    | some e' =>
      cases he
      exact hcall _ _ _ hop
    | none =>
      obtain ⟨p, hp, he⟩ := Option.map_eq_some_iff.mp he
      cases he
      simp only [callKernel] at hp
      split at hp
      · cases hp
      · split at hp
        · cases hp
          exact hcall _ _ _ hop
        · cases hp
  | decreaseReadyCounts k j =>
    cases he
    obtain ⟨u, -, rfl⟩ := List.mem_map.mp hop
    rfl
  | enqueueWork k =>
    simp only [exec] at he
    split at he <;> cases he <;> cases hop
  | processUsedBy k i v =>
    simp only [exec] at he
    split at he <;> cases he <;> cases List.mem_singleton.mp hop <;> rfl
  | casAsyncValuePtr k i v =>
    simp only [exec] at he
    split at he <;> cases he <;> cases List.mem_singleton.mp hop <;> rfl
  | processReadyKernels => cases he
  | processReadyKernel k | setAsyncValuePtr k j v | forwardExisting k j i v | forwardTo i v =>
    cases he
    cases List.mem_singleton.mp hop
    rfl
  | _ =>
    cases he
    cases hop

theorem stable_noPseudo : Stable g start V E Frame.NoPseudo where
  ends h op hop := h op (List.mem_cons_of_mem _ hop)
  round := by
    intro k ks rest h op hop
    rcases List.mem_append.mp hop with hop | hop
    · obtain ⟨u, -, rfl⟩ := List.mem_map.mp hop
      rfl
    · rcases List.mem_cons.mp hop with rfl | hop
      · rfl
      · exact h op hop
  exec := by
    intro sh sh' c ready op rest e he h op' hop
    rcases List.mem_append.mp hop with hop | hop
    · exact exec_noPseudo he (h op List.mem_cons_self) op' hop
    · exact h op' (List.mem_cons_of_mem _ hop)
  task k op hop := by
    simp only [taskFrame, List.mem_cons, List.not_mem_nil, or_false] at hop
    rcases hop with rfl | rfl <;> rfl
  waiter w op hop := by
    cases w with
    | forward i v =>
      cases List.mem_singleton.mp hop
      rfl
    | client c =>
      cases c <;> simp only [waiterCode, List.mem_cons, List.not_mem_nil, or_false] at hop <;>
        rcases hop with rfl | rfl | rfl <;> rfl
  drop b op hop := by
    cases List.mem_singleton.mp hop
    rfl

theorem OtherFrames.set {P : Frame → Prop} (h : OtherFrames P s) {t : Nat} {st : List Frame}
    {queue : List Nat} (hst : t ≠ 0 → ∀ f ∈ st, P f) :
    OtherFrames P (⟨sh, queue, s.threads.set t st⟩ : St V E) := by
  intro u x hu hx f hf
  by_cases htu : t = u
  · subst htu
    obtain ⟨y, -, rfl⟩ := Option.map_eq_some_iff.mp ((List.getElem?_set_self' ..).symm.trans hx)
    exact hst hu f hf
  · exact h u x hu ((List.getElem?_set_ne htu).symm.trans hx) f hf

theorem OtherFrames.append {P : Frame → Prop} (h : OtherFrames P s) {st : List Frame}
    {queue : List Nat} (hst : ∀ f ∈ st, P f) :
    OtherFrames P (⟨sh, queue, s.threads ++ [st]⟩ : St V E) := by
  intro u x hu hx f hf
  rcases Nat.lt_or_ge u s.threads.length with hlt | hge
  · exact h u x hu ((List.getElem?_append_left hlt).symm.trans hx) f hf
  · rw [List.getElem?_append_right hge] at hx
    cases List.mem_singleton.mp (List.mem_of_getElem? hx)
    exact hst f hf

/-- A step keeps a property of the frames of the other threads. -/
theorem Moves.otherFrames {P : Frame → Prop} {l : Label V E} (hP : Stable g start V E P)
    (hm : Moves g start s l s') (h : OtherFrames P s) : OtherFrames P s' := by
  have hstack : ∀ {t : Nat} {f : Frame} {stack : List Frame}, s.threads[t]? = some (f :: stack) →
      t ≠ 0 → P f ∧ ∀ x ∈ stack, P x := by
    intro t f stack ht h0
    have := h t _ h0 ht
    exact ⟨this f List.mem_cons_self, fun x hx => this x (List.mem_cons_of_mem _ hx)⟩
  cases hm with
  | pop ht => exact h.set fun h0 => (hstack ht h0).2
  | ends ht =>
    refine h.set fun h0 f hf => ?_
    rcases List.mem_cons.mp hf with rfl | hf
    · exact hP.ends (hstack ht h0).1
    · exact (hstack ht h0).2 f hf
  | round ht =>
    refine h.set fun h0 f hf => ?_
    rcases List.mem_cons.mp hf with rfl | hf
    · exact hP.round (hstack ht h0).1
    · exact (hstack ht h0).2 f hf
  | exec ht he =>
    refine h.set fun h0 f hf => ?_
    rcases List.mem_append.mp hf with hf | hf
    · rcases exec_frames he hf with ⟨w, rfl⟩ | ⟨k, rfl⟩
      · exact hP.waiter w
      · exact hP.task k
    · rcases List.mem_cons.mp hf with rfl | hf
      · exact hP.exec he (hstack ht h0).1
      · exact (hstack ht h0).2 f hf
  | pick hk =>
    refine h.append fun f hf => ?_
    cases List.mem_singleton.mp hf
    exact hP.task _
  | resolve hp hr =>
    refine h.append fun f hf => ?_
    rcases List.mem_append.mp hf with hf | hf
    · exact hP.waiterFrames _ f hf
    · cases List.mem_singleton.mp hf
      exact hP.drop _
  | dropResult hr ht => exact h

/-- No operation drops an entry of `results`. -/
theorem Does.results_dropped {old new net : List Op} (hd : Does g start sh old sh' new net)
    (hop : old ≠ []) {r : Nat} (h : sh'.results r = .dropped) : sh.results r = .dropped := by
  cases hd with
  | @load q c v | @install q ind c | @discard q ind v c =>
    cases c with
    | addArg => exact h
    | takeResult q' =>
      simp only [Cont.resume, Function.update_apply] at h
      split at h
      · cases h
      · exact h
  | skip | resolveConcrete | resolveIndirect | dropResult | dropArgument => exact absurd rfl hop
  | _ => exact h

/-- Only the caller drops entries of `results`, and only those that hold a value. -/
theorem Moves.results_dropped {handles : Addr → Nat} {l : Label V E} (hm : Moves g start s l s')
    (hsafe : Safe g start handles s) {r : Nat} (h : s'.sh.results r = .dropped)
    (hout : ∀ a, s.sh.results r ≠ .held a) : s.sh.results r = .dropped := by
  cases hm with
  | pop | ends | round | pick => exact h
  | @exec t c ready op rest stack sh' e ht he =>
    have hrun : op ∈ s.running := St.Executes.mem_running ⟨t, ready, rest, stack, ht⟩
    obtain ⟨net, hd⟩ := exec_does he (hsafe.bounded.ops op hrun)
    exact hd.results_dropped (List.cons_ne_nil op []) h
  | resolve hp hr =>
    simp only [GraphExecutor.resolve] at hr
    split at hr
    · cases hr
      exact h
    · cases hr
      exact h
    · cases hr
  | @dropResult q a hr ht =>
    change Function.update s.sh.results q .dropped r = .dropped at h
    rw [Function.update_apply] at h
    split at h
    · rename_i heq
      rw [← heq] at hr
      exact absurd hr (hout a)
    · exact h

/-- `Execute` does not go on after it has returned. -/
theorem Moves.returned {l : Label V E} (hm : Moves g start s l s') (h : s.threads[0]? = some []) :
    s'.threads[0]? = some [] := by
  have hset : ∀ {t : Nat} {f : Frame} {stack st : List Frame}, s.threads[t]? = some (f :: stack) →
      (s.threads.set t st)[0]? = some [] := by
    intro t f stack st ht
    have hne : t ≠ 0 := by
      rintro rfl
      cases h.symm.trans ht
    rw [List.getElem?_set_ne hne]
    exact h
  have happend : ∀ st, (s.threads ++ [st])[0]? = some [] := fun st => by
    rw [List.getElem?_append_left (List.getElem?_eq_some_iff.mp h).1]
    exact h
  cases hm with
  | pop ht | ends ht | round ht | exec ht _ => exact hset ht
  | pick hk | resolve hp hr => exact happend _
  | dropResult hr ht => exact h

end Threads

/-! ## Runs with their caller -/

section Reach

variable {handles : Addr → Nat} {heap : Heap V E Closure} {promised : Addr → Bool}
  {arguments : List Addr} {s s' : St V E}

/-- What holds in all runs with their caller. -/
structure CallerSafe (g : AsyncGraph F) (start : Nat) (handles : Addr → Nat) (s : St V E) : Prop where
  safe : Safe g start handles s
  pseudo : PseudoDirect g start s.sh s.running
  others : OtherFrames Frame.NoPseudo s
  /-- An argument is dropped after `Execute` has returned. -/
  kept : ∀ r ∈ g.resultsIndex start, s.sh.results r = .dropped → s.threads[0]? = some []

/-- A step of the agendas. -/
theorem CallerSafe.of_does (hw : g.Wired start) (h : CallerSafe g start handles s)
    {old new net : List Op} {R Q : Multiset Op} (hd : Does g start s.sh old s'.sh new net)
    (h1 : s.running = ↑old + R) (h2 : s'.running = ↑new + R) (h3 : s.agenda start = ↑old + Q)
    (h4 : s'.agenda start = ↑net + Q) (hothers : OtherFrames Frame.NoPseudo s')
    (hkept : ∀ r ∈ g.resultsIndex start, s'.sh.results r = .dropped → s'.threads[0]? = some []) :
    CallerSafe g start handles s' := by
  refine ⟨h.safe.of_does hw hd h1 h2 h3 h4, ?_, hothers, hkept⟩
  rw [h2]
  exact (h1 ▸ h.pseudo).preserved hd (h3 ▸ h.safe.flow) (h3 ▸ h.safe.slots)

theorem CallerSafe.step (hw : g.Wired start)
    (hused : ∀ r ∈ g.resultsIndex start, g.userCount r ≠ 0) (h : CallerSafe g start handles s)
    {l : Label V E} (hs : GraphExecutor.step g start s l = some s') (hok : DropsDelivered s l) :
    CallerSafe g start handles s' := by
  obtain ⟨old, new, net, R, Q, hd, h1, h2, h3, h4, -⟩ := h.safe.does hs hok
  have hm := step_moves hs
  refine h.of_does hw hd h1 h2 h3 h4 (hm.otherFrames stable_noPseudo h.others) fun r hr hdrop => ?_
  refine hm.returned (h.kept r hr ?_)
  -- the executor and the drops of results leave the entries of the start registers alone
  have hnot : r ∉ g.resultRegs := fun hmem => hused r hr ((hw.mem_resultRegs r).mp hmem).2
  exact hm.results_dropped h.safe hdrop fun a ha => hnot (h.safe.slots.output_held ha)

theorem CallerSafe.dropArgument (hw : g.Wired start)
    (hused : ∀ r ∈ g.resultsIndex start, g.userCount r ≠ 0) (h : CallerSafe g start handles s)
    {j : Nat} (hs : callerStep g start s (.dropArgument j) = some s') :
    CallerSafe g start handles s' := by
  simp only [callerStep] at hs
  split at hs
  · rename_i a ha
    obtain ⟨⟨hj, ht, hr⟩, hs⟩ := Option.ite_none_right_eq_some.mp hs
    cases hs
    have hst : g.resultReg start j ∈ g.resultsIndex start := mem_resultsIndex.mpr ⟨j, hj, rfl⟩
    have hd := Does.dropArgument (g := g) hst (hused _ hst) ha hr
    refine h.of_does hw hd (R := s.running) (Q := s.agenda start) (zero_add _).symm
      (zero_add _).symm (zero_add _).symm ?_ h.others fun _ _ _ => ht
    simp [St.agenda, St.running]
  · cases hs

theorem CallerSafe.reach (hw : g.Wired start)
    (hused : ∀ r ∈ g.resultsIndex start, g.userCount r ≠ 0)
    (hc : Caller g start handles heap promised arguments)
    (hs : (callerSys g start heap promised arguments).Reach CallerDelivered s) :
    CallerSafe g start handles s := by
  refine hs.invariant (fun s h => ?_) fun s l s' h hok hn => ?_
  · rw [show s = init g start heap promised arguments from h]
    refine ⟨hc.safe hw, fun j a hop => ?_, fun t st h0 ht => ?_, fun r hr hdrop => ?_⟩
    · rw [running_init] at hop
      rcases mem_mainFrame hop with ⟨i, -, h⟩ | h | ⟨r, -, h⟩ | h <;> cases h
    · rw [show (init g start heap promised arguments).threads = [[mainFrame g start]] from rfl] at ht
      obtain ⟨hlt, -⟩ := List.getElem?_eq_some_iff.mp ht
      exact absurd (Nat.lt_one_iff.mp hlt) h0
    · cases hdrop
  · cases l with
    | step l => exact h.step hw hused hn hok
    | dropArgument j => exact h.dropArgument hw hused hn

/-- **No thread, no resolving work and no entry of `results` ever refers to a destroyed value**, if
every start result has a consumer, and the caller drops results only after their delivery and
arguments only after `Execute` has returned. -/
theorem accesses_alive {nodes : List (AsyncNode F)} {order : HashOrder} (hu : UniqueProducer nodes)
    (hstart : (build order nodes).startNode = some start)
    (hused : ∀ r ∈ (build order nodes).resultsIndex start, (build order nodes).userCount r ≠ 0)
    (hc : Caller (build order nodes) start handles heap promised arguments)
    (hr : (callerSys (build order nodes) start heap promised arguments).Reach CallerDelivered s) :
    AccessesAlive (build order nodes) start s := by
  have hw := wired_build hu hstart
  have h := CallerSafe.reach hw hused hc hr
  refine ⟨fun op hex a ha => alive_behind h.safe.counted.counts ?_,
    fun a ha => h.safe.counted.pos_promised ha,
    fun r a ha => alive_behind h.safe.counted.counts (h.safe.counted.alive_held h.safe.slots ha)⟩
  have hop := hex.mem_running
  refine Op.accesses_pos hw h.safe.flow h.safe.slots h.safe.counted h.pseudo op hop
    (Multiset.mem_add.mpr (.inl hop)) (fun hp r hmem hdrop => ?_) a ha
  -- the calling thread executes it, so it has not returned
  obtain ⟨t, ready, rest, stack, ht⟩ := hex
  have h0 : t = 0 := by
    by_contra h0
    have hno := h.others t _ h0 ht _ List.mem_cons_self op List.mem_cons_self
    rw [hp] at hno
    cases hno
  subst h0
  cases (h.kept r hmem hdrop).symm.trans ht

end Reach

/-- `Execute` returns with `g` in the queue, the caller drops its argument, and a worker goes on until
it calls `g`. -/
def forkDropped : List (CallerLabel Nat Unit) :=
  forkExecute.map .step ++ .dropArgument 0 :: .step (.pick 2) ::
    List.replicate 4 (.step (runReturning 1 readyValue))

/-- A run in which no result is dropped. -/
theorem reach_forkDropped {s : St Nat Unit} (hs : runLabels (callerStep forkGraph 0)
    (init forkGraph 0 (argumentHeap [readyValue]) (promises 0 [readyValue]) [0]) forkDropped =
      some s) :
    (callerSys forkGraph 0 (argumentHeap [readyValue]) (promises 0 [readyValue]) [0]).Reach
      CallerDelivered s := by
  have hkept : ∀ l ∈ forkDropped, ∀ r, l ≠ .step (.dropResult r) := by
    intro l hl r h
    subst h
    rcases List.mem_append.mp hl with hl | hl
    · obtain ⟨l, hl, h⟩ := List.mem_map.mp hl
      rw [List.eq_of_mem_replicate hl] at h
      cases h
    · simp [runReturning] at hl
  refine (reach_runLabels (fun l => ∀ r, l ≠ .step (.dropResult r)) (.init rfl) forkDropped hkept
    hs).mono fun s l h => ?_
  cases l with
  | step l => exact fun r he => absurd (congrArg _ he) (h r)
  | dropArgument j => trivial

/-- The caller has dropped its argument, and `g` is called with it. -/
theorem accesses_alive_fork : ∃ s,
    runLabels (callerStep forkGraph 0) (init forkGraph 0 (argumentHeap [readyValue])
      (promises 0 [readyValue]) [0]) forkDropped = some s ∧
    s.sh.results 0 = .dropped ∧ s.Executes (.callKernel 2 [0] none) ∧ 0 < s.sh.heap.refs 0 := by
  refine ⟨_, rfl, rfl, ⟨1, _, _, _, rfl⟩, ?_⟩
  exact (accesses_alive unique_forkNodes rfl (by decide) caller_fork (reach_forkDropped rfl)).ops
    (.callKernel 2 [0] none) ⟨1, _, _, _, rfl⟩ 0 (by decide) 0 (by decide)

end GraphExecutor

end AsyncLib
