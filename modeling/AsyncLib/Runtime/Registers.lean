import AsyncLib.Runtime.Flow

/-!
# Registers and result slots

How a register changes over a run: it is empty, then holds an indirect value of
`GetOrCreateAsyncValuePtr` or the value of its producer, and in the first case the indirect value is
forwarded once. An entry of `results` is filled once, from its register.

* `Reg.Step`: the changes of a register. `Does.reg_step`: every step of the executor makes one.
* `Slots`: the invariant about registers and slots.
-/

namespace AsyncLib

namespace GraphExecutor

open AsyncValue Sys Agenda

/-- How a register may change. -/
inductive Reg.Step : Reg → Reg → Prop
  | same (x : Reg) : Step x x
  | install (i : Addr) : Step .empty (.installed i)
  | store (v : Addr) : Step .empty (.direct v)
  | forward (i v : Addr) : Step (.installed i) (.forwarded i v)

namespace Reg.Step

variable {x y : Reg}

theorem ptr (h : Reg.Step x y) {a : Addr} (hx : x.ptr = some a) : y.ptr = some a := by
  cases h with
  | same => exact hx
  | install | store => cases hx
  | forward => exact hx

theorem delivered (h : Reg.Step x y) {v : Addr} (hx : x.delivered = some v) :
    y.delivered = some v := by
  cases h with
  | same => exact hx
  | install | store | forward => cases hx

theorem ne_empty (h : Reg.Step x y) (hx : x ≠ .empty) : y ≠ .empty := by
  cases h with
  | same => exact hx
  | install | store => exact absurd rfl hx
  | forward => exact fun hc => by cases hc

theorem direct (h : Reg.Step x y) {a : Addr} (hx : x = .direct a) : y = .direct a := by
  subst hx
  cases h
  rfl

end Reg.Step

variable {F V E : Type} {g : AsyncGraph F} {start : Nat}

/-- The result slots that an operation is going to fill. -/
def Op.take : Op → Nat → Nat
  | .getResult r => Pi.single r 1
  | .installIndirect _ _ (.takeResult r) => Pi.single r 1
  | _ => 0

/-- The slot was filled. -/
def filled (sh : Shared V E) (r : Nat) : Nat := if sh.results r = .empty then 0 else 1

/-- Registers and slots: a start register holds its argument, a failed compare-exchange found an
indirect value that is still to be forwarded, a slot holds what its register holds, is filled once
and only from an output register, each of which has its turn, and is dropped only after the
delivery. The slot of a start register with consumers says whether its argument was dropped. -/
structure Slots (g : AsyncGraph F) (start : Nat) (sh : Shared V E) (A : Multiset Op) : Prop where
  inRange : ∀ r, sh.regs r ≠ .empty → r < g.numRegs
  starts : ∀ r ∈ g.resultsIndex start, ∃ a, sh.regs r = .direct a
  existing : ∀ k j i v, .forwardExisting k j i v ∈ A → sh.regs (g.resultReg k j) = .installed i
  held : ∀ r a, sh.results r = .held a → (sh.regs r).ptr = some a
  taken : ∀ r, weight Op.take A r + filled sh r ≤ 1
  turn : ∀ r ∈ g.resultRegs.take g.mOutputNames.length, weight Op.take A r + filled sh r = 1
  output : ∀ r, sh.results r ≠ .empty →
    (r ∈ g.resultRegs ∨ r ∈ g.resultsIndex start ∧ sh.results r = .dropped) ∧ sh.regs r ≠ .empty
  dropped : ∀ r, sh.results r = .dropped → (sh.regs r).delivered ≠ none

section Steps

variable {sh sh' : Shared V E} {A R : Multiset Op} {old new net : List Op}

/-- Only the slot of an output register holds a value. -/
theorem Slots.output_held (hs : Slots g start sh A) {r : Nat} {a : Addr}
    (h : sh.results r = .held a) : r ∈ g.resultRegs := by
  rcases (hs.output r (by rw [h]; simp)).1 with hout | ⟨-, hd⟩
  · exact hout
  · cases h.symm.trans hd

/-- A register in which a compare-exchange failed holds an indirect value. -/
theorem installed_of_ptr (hf : Flow g start sh A) (hw : g.Wired start) (op : Op) (hop : op ∈ A)
    {r : Nat} (hr : 0 < op.delivery g r) {i : Addr} (hp : (sh.regs r).ptr = some i) :
    sh.regs r = .installed i := by
  have hd := hf.not_delivered hw hop hr
  cases hreg : sh.regs r with
  | empty => rw [hreg] at hp; cases hp
  | installed x => rw [hreg] at hp; cases hp; rfl
  | forwarded x v => rw [hreg] at hd; cases hd
  | direct v => rw [hreg] at hd; cases hd

/-- Every step changes a register as `Reg.Step` says. -/
theorem Does.reg_step (hd : Does g start sh old sh' new net) (hs : Slots g start sh (↑old + R))
    (r : Nat) : (sh.regs r).Step (sh'.regs r) := by
  cases hd with
  | @load q c v hc hp =>
    rw [(c.resume_fields sh v).2.1]
    exact .same _
  | @install q ind c hp =>
    rw [(c.resume_fields { sh with regs := Function.update sh.regs q (.installed ind) } ind).2.1]
    simp only [Function.update_apply]
    split
    · rename_i hq
      rw [hq, hp]
      exact .install ind
    · exact .same _
  | @discard q ind v c hp =>
    rw [(c.resume_fields { sh with heap := sh.heap.dropRef ind (g.userCount q + 1) } v).2.1]
    exact .same _
  | @store k j v hp =>
    simp only [Function.update_apply]
    split
    · rename_i hq
      rw [hq, hp]
      exact .store v
    · exact .same _
  | @forwardExisting k j i v hi hv =>
    simp only [Function.update_apply]
    split
    · rename_i hq
      rw [hq, hs.existing k j i v (by simp)]
      exact .forward i v
    · exact .same _
  | _ => exact .same _

/-- A slot stays, is filled from its register, or is dropped after the delivery. -/
theorem Does.slot_step (hd : Does g start sh old sh' new net) (hf : Flow g start sh (↑old + R))
    (r : Nat) : sh'.results r = sh.results r ∨
      (∃ v, sh'.results r = .held v ∧ (sh'.regs r).ptr = some v ∧ r ∈ g.resultRegs) ∨
      ((∃ a, sh.results r = .held a) ∨ r ∈ g.resultsIndex start) ∧ sh'.results r = .dropped ∧
        (sh.regs r).delivered ≠ none := by
  have hvalid : ∀ op ∈ old, op.Valid g start := fun op h => hf.valid op (by simp [h])
  cases hd with
  | @load q c v hc hp =>
    have hop := (Cont.valid_op g start hc).mp (hvalid _ (List.mem_singleton_self _))
    cases c with
    | addArg => exact .inl rfl
    | takeResult q' =>
      obtain ⟨rfl, hq⟩ := hop
      simp only [Cont.resume, Function.update_apply]
      split
      · rename_i hr
        subst hr
        exact .inr (.inl ⟨v, rfl, hp, hq⟩)
      · exact .inl rfl
  | @install q ind c hp =>
    have hop := hvalid _ (List.mem_singleton_self _)
    cases c with
    | addArg => exact .inl rfl
    | takeResult q' =>
      obtain ⟨rfl, hq⟩ := hop
      simp only [Cont.resume, Function.update_apply]
      split
      · rename_i hr
        subst hr
        exact .inr (.inl ⟨ind, rfl, rfl, hq⟩)
      · exact .inl rfl
  | @discard q ind v c hp =>
    have hop := hvalid _ (List.mem_singleton_self _)
    cases c with
    | addArg => exact .inl rfl
    | takeResult q' =>
      obtain ⟨rfl, hq⟩ := hop
      simp only [Cont.resume, Function.update_apply]
      split
      · rename_i hr
        subst hr
        exact .inr (.inl ⟨v, rfl, hp, hq⟩)
      · exact .inl rfl
  | @dropResult q a hr hdel =>
    simp only [Function.update_apply]
    split
    · rename_i hq
      subst hq
      exact .inr (.inr ⟨.inl ⟨a, hr⟩, rfl, hdel⟩)
    · exact .inl rfl
  | @dropArgument q a hst hu ha hr =>
    simp only [Function.update_apply]
    split
    · rename_i hq
      subst hq
      exact .inr (.inr ⟨.inr hst, rfl, by rw [ha]; simp⟩)
    · exact .inl rfl
  | _ => exact .inl rfl

theorem sum_take_resume (c : Cont) (q : Nat) (ind v : Addr) (r : Nat)
    (h1 : (Op.installIndirect q ind c).take r + filled sh r ≤ 1) :
    ((c.resume sh v).2.map fun op => op.take r).sum + filled (c.resume sh v).1 r =
      (Op.installIndirect q ind c).take r + filled sh r := by
  cases c with
  | addArg => rfl
  | takeResult q' =>
    simp only [Cont.resume, filled, Op.take, Function.update_apply, Pi.single_apply, List.map_nil,
      List.sum_nil] at h1 ⊢
    by_cases hr : r = q'
    · simp only [hr, ↓reduceIte, reduceCtorEq] at h1 ⊢
      omega
    · simp [hr]

theorem take_op (c : Cont) (q : Nat) (ind : Addr) (r : Nat) :
    (c.op q).take r = (Op.installIndirect q ind c).take r := by
  cases c <;> rfl

/-- A slot is filled by an operation that was going to fill it. -/
theorem Does.take (hd : Does g start sh old sh' new net) (r : Nat)
    (hout : r ∈ g.resultsIndex start → g.userCount r = 0)
    (h1 : (old.map fun op => op.take r).sum + filled sh r ≤ 1) :
    (net.map fun op => op.take r).sum + filled sh' r =
      (old.map fun op => op.take r).sum + filled sh r := by
  have hforward : ∀ (h : Heap V E Closure) (i v : Addr),
      ((pendingForward h i v).map fun op => op.take r).sum = 0 := by
    intro h i v
    unfold pendingForward
    split <;> rfl
  have hcall : ∀ (k : Nat) (args outs : List Addr),
      ((afterCall k args outs).map fun op => op.take r).sum = 0 := by
    intro k args outs
    simp [afterCall, Op.take, Function.comp_def]
  cases hd with
  | skip | pseudoFirst | pseudoUnused | pseudoAvailable | pseudoWait | pseudoAndThen | readyNil
  | addArgsNil | dropRef | usedBySet | usedByWait | andThen | set | enqueue | process | store
  | occupied | dropExecutor | resolveConcrete => rfl
  | decreaseAll => simp [Op.take, Function.comp_def]
  | @decrease u =>
    have h0 : ((if sh.mArgumentsNotReady u = 1 then [Op.processReadyKernel u] else []).map
        fun op => op.take r).sum = 0 := by
      split <;> rfl
    rw [h0]
    rfl
  | readyCons => simp [Op.take, Function.comp_def]
  | @load q c v hc hp =>
    rw [List.map_singleton, List.sum_singleton, take_op c q 0] at h1 ⊢
    exact sum_take_resume c q 0 v r h1
  | @make q c hc hp =>
    rw [List.map_singleton, List.sum_singleton, List.map_singleton, List.sum_singleton,
      take_op c q sh.heap.next]
    rfl
  | @install q ind c hp =>
    rw [List.map_singleton, List.sum_singleton] at h1 ⊢
    exact sum_take_resume c q ind ind r h1
  | @discard q ind v c hp =>
    rw [List.map_singleton, List.sum_singleton] at h1 ⊢
    exact sum_take_resume c q ind v r h1
  | callError =>
    rw [hcall]
    rfl
  | call =>
    rw [hcall]
    rfl
  | forwardExisting =>
    rw [List.map_append, List.sum_append, hforward]
    rfl
  | forwardTo =>
    rw [List.map_append, List.sum_append, hforward]
    rfl
  | resolveIndirect =>
    rw [List.map_append, List.sum_append, hforward]
    rfl
  | @dropResult q a hr hdel =>
    simp only [filled, Function.update_apply]
    by_cases hq : r = q
    · subst hq
      simp [hr]
    · simp [hq]
  | @dropArgument q a hst hu ha hr =>
    have hq : r ≠ q := fun hq => hu (hq ▸ hout (hq ▸ hst))
    simp [filled, hq]

/-- The registers that operations name are in range. -/
theorem arg_lt (hw : g.Wired start) {k r : Nat} (h : r ∈ g.argumentsIdx k) : r < g.numRegs := by
  obtain ⟨k', j, hj, rfl⟩ := hw.produced h
  exact hw.reg_lt hj

theorem Cont.Valid.lt (hw : g.Wired start) {c : Cont} {r : Nat} (h : c.Valid g start r) :
    r < g.numRegs := by
  cases c with
  | addArg => exact arg_lt hw (h.2.1 r (by simp))
  | takeResult q => exact ((hw.mem_resultRegs r).mp h.2).1

/-- A register that a step fills is in range. -/
theorem Does.inRange (hw : g.Wired start) (hd : Does g start sh old sh' new net)
    (hf : Flow g start sh (↑old + R)) {r : Nat} (h0 : sh.regs r = .empty)
    (h1 : sh'.regs r ≠ .empty) : r < g.numRegs := by
  have hvalid : ∀ op ∈ old, op.Valid g start := fun op h => hf.valid op (by simp [h])
  cases hd with
  | @load q c v hc hp =>
    rw [(c.resume_fields sh v).2.1] at h1
    exact absurd h0 h1
  | @discard q ind v c hp =>
    rw [(c.resume_fields { sh with heap := sh.heap.dropRef ind (g.userCount q + 1) } v).2.1] at h1
    exact absurd h0 h1
  | @install q ind c hp =>
    by_cases hr : r = q
    · subst hr
      exact Cont.Valid.lt hw (hvalid _ (List.mem_singleton_self _))
    · rw [(c.resume_fields { sh with regs := Function.update sh.regs q (.installed ind) } ind).2.1]
        at h1
      simp only [Function.update_of_ne hr] at h1
      exact absurd h0 h1
  | @store k j v hp =>
    by_cases hr : r = g.resultReg k j
    · subst hr
      have hop : Op.Valid g start (.casAsyncValuePtr k j v) := hvalid _ (List.mem_singleton_self _)
      exact hw.reg_lt hop.2
    · simp only [Function.update_of_ne hr] at h1
      exact absurd h0 h1
  | @forwardExisting k j i v hi hv =>
    by_cases hr : r = g.resultReg k j
    · subst hr
      have hop : Op.Valid g start (.forwardExisting k j i v) := hvalid _ (List.mem_singleton_self _)
      exact hw.reg_lt hop.2
    · simp only [Function.update_of_ne hr] at h1
      exact absurd h0 h1
  | _ => exact absurd h0 h1

/-- A new `forwardExisting` follows a failed compare-exchange. -/
theorem Does.mem_forwardExisting (hd : Does g start sh old sh' new net) {k j : Nat} {i v : Addr}
    (h : .forwardExisting k j i v ∈ net) : old = [.casAsyncValuePtr k j v] ∧ sh' = sh ∧
      (sh.regs (g.resultReg k j)).ptr = some i := by
  have hforward : ∀ (h : Heap V E Closure) (x y : Addr),
      Op.forwardExisting k j i v ∉ pendingForward h x y := by
    intro h x y
    unfold pendingForward
    split <;> simp
  cases hd with
  | occupied hp =>
    cases List.mem_singleton.mp h
    exact ⟨rfl, rfl, hp⟩
  | @load q c => cases c <;> simp [Cont.resume] at h
  | @install q ind c => cases c <;> simp [Cont.resume] at h
  | @discard q ind v c => cases c <;> simp [Cont.resume] at h
  | decrease => split at h <;> simp at h
  | forwardExisting =>
    rcases List.mem_append.mp h with h | h
    · exact absurd h (hforward _ _ _)
    · simp at h
  | forwardTo =>
    rcases List.mem_append.mp h with h | h
    · exact absurd h (hforward _ _ _)
    · simp at h
  | resolveIndirect =>
    rcases List.mem_append.mp h with h | h
    · exact absurd h (hforward _ _ _)
    · simp at h
  | _ => simp [afterCall, waiterCode, taskFrame, Frame.ops] at h

/-- Only the slots of output registers are filled. -/
theorem Flow.take_eq_zero (hw : g.Wired start) (hf : Flow g start sh A) {r : Nat}
    (hu : g.userCount r ≠ 0) : weight Op.take A r = 0 := by
  by_contra h0
  obtain ⟨op, hop, hpos⟩ := exists_of_weight_pos Op.take r (Nat.pos_of_ne_zero h0)
  have hvalid := hf.valid op hop
  have hout : ∀ q, 0 < (Pi.single q 1 : Nat → Nat) r → q ∈ g.resultRegs → False := by
    intro q hq hmem
    have hqr : r = q := by
      by_contra hne
      rw [Pi.single_eq_of_ne hne] at hq
      exact absurd hq (Nat.lt_irrefl 0)
    exact hu (hqr ▸ ((hw.mem_resultRegs q).mp hmem).2)
  cases op with
  | getResult q => exact hout q hpos hvalid
  | installIndirect q ind c =>
    cases c with
    | addArg k todo args err => exact absurd hpos (Nat.lt_irrefl 0)
    | takeResult q' =>
      obtain ⟨rfl, hmem⟩ : q' = q ∧ q ∈ g.resultRegs := hvalid
      exact hout _ hpos hmem
  | _ => exact absurd hpos (Nat.lt_irrefl 0)

theorem Slots.preserved (hw : g.Wired start) (hd : Does g start sh old sh' new net)
    (hf : Flow g start sh (↑old + R)) (hs : Slots g start sh (↑old + R)) :
    Slots g start sh' (↑net + R) where
  inRange := by
    intro r hr
    by_cases h0 : sh.regs r = .empty
    · exact hd.inRange hw hf h0 hr
    · exact hs.inRange r h0
  starts := by
    intro r hr
    obtain ⟨a, ha⟩ := hs.starts r hr
    exact ⟨a, (hd.reg_step hs r).direct ha⟩
  existing := by
    intro k j i v hm
    rcases Multiset.mem_add.mp hm with hn | hR
    · obtain ⟨rfl, rfl, hp⟩ := hd.mem_forwardExisting (Multiset.mem_coe.mp hn)
      exact installed_of_ptr hf hw (.casAsyncValuePtr k j v) (by simp)
        (by simp [Op.delivery]) hp
    · have hi := hs.existing k j i v (by simp [hR])
      have hstep := hd.reg_step hs (g.resultReg k j)
      rw [hi] at hstep
      cases hreg : sh'.regs (g.resultReg k j) with
      | installed x =>
        rw [hreg] at hstep
        cases hstep
        rfl
      | empty => rw [hreg] at hstep; cases hstep
      | direct x => rw [hreg] at hstep; cases hstep
      | forwarded x y =>
        -- then this delivery would not be the only one
        have hfl := (hf.preserved hw hd).not_delivered hw hm (r := g.resultReg k j)
          (by simp [Op.delivery])
        rw [hreg] at hfl
        cases hfl
  held := by
    intro r a hr
    rcases hd.slot_step hf r with h | ⟨v, h, hp, -⟩ | ⟨-, h, -⟩
    · exact (hd.reg_step hs r).ptr (hs.held r a (h ▸ hr))
    · rw [hr] at h
      cases h
      exact hp
    · rw [hr] at h
      cases h
  taken := by
    intro r
    by_cases hu : g.userCount r = 0
    · have h1 := hs.taken r
      rw [weight_add, weight_coe] at h1 ⊢
      have h2 := hd.take r (fun _ => hu) (by omega)
      omega
    · rw [(hf.preserved hw hd).take_eq_zero hw hu, Nat.zero_add, filled]
      split <;> omega
  turn := by
    intro r hr
    have hu := ((hw.mem_resultRegs r).mp (List.mem_of_mem_take hr)).2
    have h1 := hs.turn r hr
    rw [weight_add, weight_coe] at h1 ⊢
    have h2 := hd.take r (fun _ => hu) (by omega)
    omega
  output := by
    intro r hr
    have hreg : ∀ {q}, sh.regs q ≠ .empty → sh'.regs q ≠ .empty := (hd.reg_step hs _).ne_empty
    rcases hd.slot_step hf r with h | ⟨v, -, hp, hmem⟩ | ⟨hb | hst, hdrop, -⟩
    · rw [h] at hr ⊢
      exact (hs.output r hr).imp_right hreg
    · exact ⟨.inl hmem, fun he => by rw [he] at hp; cases hp⟩
    · obtain ⟨b, hb⟩ := hb
      obtain ⟨h1, h2⟩ := hs.output r (by rw [hb]; simp)
      refine ⟨h1.imp_right fun h => ⟨h.1, hdrop⟩, hreg h2⟩
    · obtain ⟨a, ha⟩ := hs.starts r hst
      exact ⟨.inr ⟨hst, hdrop⟩, hreg (by rw [ha]; simp)⟩
  dropped := by
    intro r hr
    have hmono : (sh.regs r).delivered ≠ none → (sh'.regs r).delivered ≠ none := by
      intro h
      obtain ⟨v, hv⟩ := Option.ne_none_iff_exists'.mp h
      rw [(hd.reg_step hs r).delivered hv]
      simp
    rcases hd.slot_step hf r with h | ⟨v, h, -, -⟩ | ⟨-, -, hdel⟩
    · exact hmono (hs.dropped r (h ▸ hr))
    · rw [hr] at h
      cases h
    · exact hmono hdel

end Steps

end GraphExecutor

end AsyncLib
