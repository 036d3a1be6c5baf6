import AsyncLib.Concurrent.EventCountRuns
import AsyncLib.Concurrent.EventCountSpec

/-!
# `EventCount` loses no notification

The signals of `mState` are a number, the notifications of `Waiting` are threads. A state of the
program fits every choice of as many threads in pre-wait state as there are signals (`Fits`), and
each choice after a step comes from one before it (`Inv.backward`).

* `event_count_refines`: every run is a run of `Waiting` with takeover.
* `not_event_count_refines`: without takeover it is not: a thread that begins to wait after a
  `Notify(false)` takes the signal of the one thread that the `Notify` could choose, and that thread
  parks.
-/

namespace AsyncLib

namespace EventCount

open Sys

variable {n : Nat} {s s' : St} {t : Tid} {m : Nid}

/-- The threads in pre-wait state. -/
def preSet (n : Nat) (s : St) : Finset Tid := (Finset.range n).filter fun t => (s.pc t).pre = true

/-- The threads in a `CommitWait` that has pushed its waiter. -/
def blockedSet (n : Nat) (s : St) : Finset Tid :=
  (Finset.range n).filter fun t => (s.pc t).committed = true

/-- The threads among them whose waiter was popped. -/
def wokenSet (n : Nat) (s : St) : Finset Tid :=
  (blockedSet n s).filter fun t => s.log.role t ≠ .stacked

/-- The abstract state in which the threads `sig` own the signals. -/
def absOf (n : Nat) (s : St) (sig : Finset Tid) : Waiting :=
  ⟨preSet n s, blockedSet n s, sig ∪ wokenSet n s⟩

/-- The abstract state comes from a choice of the threads that own the signals. -/
def Fits (n : Nat) (s : St) (a : Waiting) : Prop :=
  ∃ sig, sig ⊆ preSet n s ∧ sig.card = (signalsOf s.mState).toNat ∧ a = absOf n s sig

/-- The step of `s` to `s'` is none or one operation, for every abstract state that fits `s'`. -/
def Back (n : Nat) (s s' : St) : Prop :=
  (s'.log.trace = s.log.trace ∧ ∀ a, Fits n s' a → Fits n s a) ∨
    ∃ e, s'.log.trace = s.log.trace ++ [e] ∧
      ∀ a', Fits n s' a' → ∃ a, Fits n s a ∧ Waiting.Step true a e a'

theorem Pc.committed_of_pre {pc : Pc} (h : pc.pre = true) : pc.committed = false := by
  cases pc <;> first | rfl | cases h

theorem mem_preSet (h : Inv n s) : t ∈ preSet n s ↔ (s.pc t).pre = true := by
  rw [preSet, Finset.mem_filter, Finset.mem_range]
  refine ⟨fun hc => hc.2, fun hp => ⟨h.range t fun hi => ?_, hp⟩⟩
  rw [hi] at hp
  cases hp

theorem mem_blockedSet (h : Inv n s) : t ∈ blockedSet n s ↔ (s.pc t).committed = true := by
  rw [blockedSet, Finset.mem_filter, Finset.mem_range]
  refine ⟨fun hc => hc.2, fun hp => ⟨h.range t fun hi => ?_, hp⟩⟩
  rw [hi] at hp
  cases hp

theorem mem_wokenSet (h : Inv n s) :
    t ∈ wokenSet n s ↔ (s.pc t).committed = true ∧ s.log.role t ≠ .stacked := by
  rw [wokenSet, Finset.mem_filter, mem_blockedSet h]

theorem Inv.card_preSet (h : Inv n s) : (preSet n s).card = (waitersOf s.mState).toNat := by
  rw [h.count, count_eq_card]
  rfl

/-- A thread in pre-wait state is not among those that were popped. -/
theorem not_mem_wokenSet (h : Inv n s) (ht : t ∈ preSet n s) : t ∉ wokenSet n s := fun hc => by
  have := Pc.committed_of_pre ((mem_preSet h).mp ht)
  rw [((mem_wokenSet h).mp hc).1] at this
  cases this

/-! ## Steps without an operation -/

/-- A step that no abstract state sees. -/
theorem Back.quiet (htrace : s'.log.trace = s.log.trace)
    (hpre : ∀ t, (s'.pc t).pre = (s.pc t).pre)
    (hcom : ∀ t, (s'.pc t).committed = (s.pc t).committed)
    (hrole : ∀ t, s'.log.role t = .stacked ↔ s.log.role t = .stacked)
    (hsig : signalsOf s'.mState = signalsOf s.mState) : Back n s s' := by
  have h1 : preSet n s' = preSet n s := by simp only [preSet, hpre]
  have h2 : blockedSet n s' = blockedSet n s := by simp only [blockedSet, hcom]
  have h3 : wokenSet n s' = wokenSet n s := by simp only [wokenSet, h2, ne_eq, hrole]
  refine .inl ⟨htrace, ?_⟩
  rintro a ⟨sig, hs, hc, rfl⟩
  rw [h1] at hs
  rw [hsig] at hc
  exact ⟨sig, hs, hc, by simp only [absOf, h1, h2, h3]⟩

/-- A step of thread `t` that no abstract state sees. -/
theorem Back.move {pc : Pc} (hpc : s'.pc = Function.update s.pc t pc)
    (hpre : pc.pre = (s.pc t).pre) (hcom : pc.committed = (s.pc t).committed)
    (htrace : s'.log.trace = s.log.trace) (hrole : s'.log.role = s.log.role)
    (hsig : s'.mState = s.mState) : Back n s s' := by
  refine .quiet htrace (fun u => ?_) (fun u => ?_) (fun u => by rw [hrole]) (by rw [hsig])
  · rw [hpc]
    by_cases hu : u = t
    · rw [hu, Function.update_self, hpre]
    · rw [Function.update_of_ne hu]
  · rw [hpc]
    by_cases hu : u = t
    · rw [hu, Function.update_self, hcom]
    · rw [Function.update_of_ne hu]

/-! ## Operations of a thread with a waiter -/

/-- Thread `t` moves; the other threads and the popped waiters stay. -/
structure Op (s s' : St) (t : Tid) (pc : Pc) (e : Event) : Prop where
  pc : s'.pc = Function.update s.pc t pc
  trace : s'.log.trace = s.log.trace ++ [e]
  role : ∀ u, u ≠ t → s'.log.role u = s.log.role u

theorem Op.self {pc : Pc} {e : Event} (h : Op s s' t pc e) : s'.pc t = pc := by
  rw [h.pc, Function.update_self]

theorem Op.other {pc : Pc} {e : Event} (h : Op s s' t pc e) {u : Tid} (hu : u ≠ t) :
    s'.pc u = s.pc u := by rw [h.pc, Function.update_of_ne hu]

/-- The thread enters or leaves the pre-wait state. -/
theorem Op.preSet {pc : Pc} {e : Event} (ho : Op s s' t pc e) (h : Inv n s) (h' : Inv n s') :
    preSet n s' = if pc.pre then insert t (preSet n s) else (preSet n s).erase t := by
  ext u
  rw [mem_preSet h']
  by_cases hu : u = t
  · subst hu
    rw [ho.self]
    split <;> simp_all
  · rw [ho.other hu, ← mem_preSet h]
    split <;> simp [hu]

theorem Op.blockedSet {pc : Pc} {e : Event} (ho : Op s s' t pc e) (h : Inv n s) (h' : Inv n s') :
    blockedSet n s' = if pc.committed then insert t (blockedSet n s)
      else (blockedSet n s).erase t := by
  ext u
  rw [mem_blockedSet h']
  by_cases hu : u = t
  · subst hu
    rw [ho.self]
    split <;> simp_all
  · rw [ho.other hu, ← mem_blockedSet h]
    split <;> simp [hu]

/-- No operation of a thread pops its waiter. -/
theorem Op.wokenSet {pc : Pc} {e : Event} (ho : Op s s' t pc e) (h : Inv n s) (h' : Inv n s')
    (hself : pc.committed = true → s'.log.role t = .stacked) :
    wokenSet n s' = (wokenSet n s).erase t := by
  ext u
  rw [mem_wokenSet h', Finset.mem_erase, mem_wokenSet h]
  by_cases hu : u = t
  · subst hu
    rw [ho.self]
    simp only [ne_eq, not_true_eq_false, false_and, iff_false, not_and, not_not]
    exact hself
  · rw [ho.other hu, ho.role u hu]
    simp [hu]

/-- `Prewait`. -/
theorem Op.prewait {pc : Pc} (ho : Op s s' t pc (.prewait t)) (h : Inv n s) (h' : Inv n s')
    (h0 : (s.pc t).pre = false) (hc : (s.pc t).committed = false) (hpre : pc.pre = true)
    (hsig : (signalsOf s'.mState).toNat = (signalsOf s.mState).toNat) : Back n s s' := by
  have hcom := Pc.committed_of_pre hpre
  have ht : t ∉ EventCount.preSet n s := by rw [mem_preSet h, h0]; simp
  have hb : t ∉ EventCount.blockedSet n s := by rw [mem_blockedSet h, hc]; simp
  have hw : t ∉ EventCount.wokenSet n s := fun hm => hb (Finset.mem_filter.mp hm).1
  have e1 := ho.preSet h h'
  have e2 := ho.blockedSet h h'
  have e3 := ho.wokenSet h h' (by rw [hcom]; simp)
  rw [if_pos hpre] at e1
  rw [hcom, if_neg Bool.false_ne_true, Finset.erase_eq_of_notMem hb] at e2
  rw [Finset.erase_eq_of_notMem hw] at e3
  refine .inr ⟨_, ho.trace, ?_⟩
  rintro a' ⟨sig, hs, hcard, rfl⟩
  rw [e1] at hs
  rw [hsig] at hcard
  have hnot : t ∉ EventCount.preSet n s ∪ EventCount.blockedSet n s := by simp [ht, hb]
  by_cases hts : t ∈ sig
  · -- some thread of the pre-wait state before does not own a signal now: it did before
    have hlt : (sig.erase t).card < (EventCount.preSet n s).card := by
      have := Finset.card_erase_lt_of_mem hts
      have := h.signals
      rw [h.card_preSet]
      omega
    obtain ⟨u, hu, hus⟩ := Finset.exists_mem_notMem_of_card_lt_card hlt
    have hut : u ≠ t := fun he => ht (he ▸ hu)
    have huw := not_mem_wokenSet h hu
    refine ⟨absOf n s (insert u (sig.erase t)), ⟨_, ?_, ?_, rfl⟩, ?_⟩
    · intro x hx
      rcases Finset.mem_insert.mp hx with rfl | hx
      · exact hu
      · exact (Finset.mem_insert.mp (hs (Finset.mem_of_mem_erase hx))).resolve_left
          (Finset.ne_of_mem_erase hx)
    · rw [Finset.card_insert_of_notMem hus, Finset.card_erase_add_one hts, hcard]
    · have hgoal : absOf n s' sig = { absOf n s (insert u (sig.erase t)) with
          pre := insert t (EventCount.preSet n s)
          notified := insert t ((insert u (sig.erase t) ∪ EventCount.wokenSet n s).erase u) } := by
        simp only [absOf, e1, e2, e3, Waiting.mk.injEq, true_and]
        ext x
        simp only [Finset.mem_union, Finset.mem_insert, Finset.mem_erase]
        grind
      rw [hgoal]
      exact .takeover rfl hnot hu (by simp [absOf])
  · refine ⟨absOf n s sig, ⟨sig, fun x hx => ?_, hcard, rfl⟩, ?_⟩
    · exact (Finset.mem_insert.mp (hs hx)).resolve_left fun he => hts (he ▸ hx)
    · have hgoal : absOf n s' sig =
          { absOf n s sig with pre := insert t (EventCount.preSet n s) } := by
        simp only [absOf, e1, e2, e3]
      rw [hgoal]
      exact .prewait hnot

/-- The sets after an operation that ends the pre-wait state of `t`. -/
theorem Op.leave {pc : Pc} {e : Event} (ho : Op s s' t pc e) (h : Inv n s) (h' : Inv n s')
    (h0 : (s.pc t).pre = true) (hpre : pc.pre = false) (hcom : pc.committed = false) :
    t ∈ EventCount.preSet n s ∧ t ∉ EventCount.wokenSet n s ∧
      EventCount.preSet n s' = (EventCount.preSet n s).erase t ∧
      EventCount.blockedSet n s' = EventCount.blockedSet n s ∧
      EventCount.wokenSet n s' = EventCount.wokenSet n s := by
  have ht := (mem_preSet h).mpr h0
  have hw := not_mem_wokenSet h ht
  have hb : t ∉ EventCount.blockedSet n s := by
    rw [mem_blockedSet h, Pc.committed_of_pre h0]
    simp
  have e1 := ho.preSet h h'
  have e2 := ho.blockedSet h h'
  have e3 := ho.wokenSet h h' (by rw [hcom]; simp)
  rw [hpre, if_neg Bool.false_ne_true] at e1
  rw [hcom, if_neg Bool.false_ne_true, Finset.erase_eq_of_notMem hb] at e2
  rw [Finset.erase_eq_of_notMem hw] at e3
  exact ⟨ht, hw, e1, e2, e3⟩

/-- `CancelWait`: the signal is kept, unless there are as many signals as threads. -/
theorem Op.cancel {pc : Pc} (ho : Op s s' t pc (.cancel t)) (h : Inv n s) (h' : Inv n s')
    (h0 : (s.pc t).pre = true) (hpre : pc.pre = false) (hcom : pc.committed = false) {p : Nat}
    (hp : (waitersOf s.mState).toNat = p + 1)
    (hsig : (signalsOf s'.mState).toNat = min (signalsOf s.mState).toNat p) : Back n s s' := by
  obtain ⟨ht, hw, e1, e2, e3⟩ := ho.leave h h' h0 hpre hcom
  have hle := h.signals
  have hcp := h.card_preSet
  refine .inr ⟨_, ho.trace, ?_⟩
  rintro a' ⟨sig, hs, hcard, rfl⟩
  rw [e1] at hs
  rw [hsig] at hcard
  have hts : t ∉ sig := fun hc => (Finset.mem_erase.mp (hs hc)).1 rfl
  have hsub : sig ⊆ EventCount.preSet n s := fun x hx => Finset.mem_of_mem_erase (hs hx)
  by_cases hg : (signalsOf s.mState).toNat ≤ p
  · rw [Nat.min_eq_left hg] at hcard
    have hnot : t ∉ sig ∪ EventCount.wokenSet n s := by simp [hts, hw]
    refine ⟨absOf n s sig, ⟨sig, hsub, hcard, rfl⟩, ?_⟩
    have hgoal : absOf n s' sig = { absOf n s sig with
        pre := (EventCount.preSet n s).erase t
        notified := (sig ∪ EventCount.wokenSet n s).erase t } := by
      simp only [absOf, e1, e2, e3, Finset.erase_eq_of_notMem hnot]
    rw [hgoal]
    exact .cancel ht fun hc => absurd hc hnot
  · -- all of them own a signal
    have hall : insert t sig = EventCount.preSet n s := by
      refine Finset.eq_of_subset_of_card_le (Finset.insert_subset ht hsub) ?_
      rw [Finset.card_insert_of_notMem hts]
      omega
    refine ⟨absOf n s (insert t sig), ⟨_, Finset.insert_subset ht hsub, ?_, rfl⟩, ?_⟩
    · rw [Finset.card_insert_of_notMem hts]
      omega
    · have hgoal : absOf n s' sig = { absOf n s (insert t sig) with
          pre := (EventCount.preSet n s).erase t
          notified := (insert t sig ∪ EventCount.wokenSet n s).erase t } := by
        simp only [absOf, e1, e2, e3, Waiting.mk.injEq, true_and]
        ext x
        simp only [Finset.mem_union, Finset.mem_insert, Finset.mem_erase]
        grind
      rw [hgoal]
      refine .cancel ht fun _ => ?_
      rw [absOf, hall]
      exact Finset.subset_union_left

/-- `CommitWait` takes a signal. -/
theorem Op.take {pc : Pc} (ho : Op s s' t pc (.take t)) (h : Inv n s) (h' : Inv n s')
    (h0 : (s.pc t).pre = true) (hpre : pc.pre = false) (hcom : pc.committed = false)
    (hsig : (signalsOf s'.mState).toNat + 1 = (signalsOf s.mState).toNat) : Back n s s' := by
  obtain ⟨ht, hw, e1, e2, e3⟩ := ho.leave h h' h0 hpre hcom
  refine .inr ⟨_, ho.trace, ?_⟩
  rintro a' ⟨sig, hs, hcard, rfl⟩
  rw [e1] at hs
  have hts : t ∉ sig := fun hc => (Finset.mem_erase.mp (hs hc)).1 rfl
  have hsub : sig ⊆ EventCount.preSet n s := fun x hx => Finset.mem_of_mem_erase (hs hx)
  refine ⟨absOf n s (insert t sig), ⟨_, Finset.insert_subset ht hsub, ?_, rfl⟩, ?_⟩
  · rw [Finset.card_insert_of_notMem hts, hcard, hsig]
  · have hgoal : absOf n s' sig = { absOf n s (insert t sig) with
        pre := (EventCount.preSet n s).erase t
        notified := (insert t sig ∪ EventCount.wokenSet n s).erase t } := by
      simp only [absOf, e1, e2, e3, Waiting.mk.injEq, true_and]
      ext x
      simp only [Finset.mem_union, Finset.mem_insert, Finset.mem_erase]
      grind
    rw [hgoal]
    exact .take ht (by simp [absOf])

/-- `CommitWait` goes on the stack, without a signal for anybody. -/
theorem Op.park {pc : Pc} (ho : Op s s' t pc (.park t)) (h : Inv n s) (h' : Inv n s')
    (h0 : (s.pc t).pre = true) (hpre : pc.pre = false) (hcom : pc.committed = true)
    (hst : s'.log.role t = .stacked) (hsig : (signalsOf s.mState).toNat = 0)
    (hsig' : (signalsOf s'.mState).toNat = 0) : Back n s s' := by
  have ht := (mem_preSet h).mpr h0
  have hw := not_mem_wokenSet h ht
  have e1 := ho.preSet h h'
  have e2 := ho.blockedSet h h'
  have e3 := ho.wokenSet h h' fun _ => hst
  rw [hpre, if_neg Bool.false_ne_true] at e1
  rw [if_pos hcom] at e2
  rw [Finset.erase_eq_of_notMem hw] at e3
  refine .inr ⟨_, ho.trace, ?_⟩
  rintro a' ⟨sig, hs, hcard, rfl⟩
  rw [hsig', Finset.card_eq_zero] at hcard
  subst hcard
  refine ⟨absOf n s ∅, ⟨∅, by simp, by simp [hsig], rfl⟩, ?_⟩
  have hgoal : absOf n s' ∅ = { absOf n s ∅ with
      pre := (EventCount.preSet n s).erase t
      blocked := insert t (EventCount.blockedSet n s) } := by
    simp only [absOf, e1, e2, e3]
  rw [hgoal]
  exact .park ht (by simp [absOf, hw])

/-- `Park` returns, since the waiter was popped. -/
theorem Op.wake {pc : Pc} (ho : Op s s' t pc (.wake t)) (h : Inv n s) (h' : Inv n s')
    (h0 : (s.pc t).committed = true) (hp : (s.pc t).pre = false) (hpre : pc.pre = false)
    (hcom : pc.committed = false) (hst : s.log.role t ≠ .stacked)
    (hsig : (signalsOf s'.mState).toNat = (signalsOf s.mState).toNat) : Back n s s' := by
  have ht := (mem_blockedSet h).mpr h0
  have hw := (mem_wokenSet h).mpr ⟨h0, hst⟩
  have hn : t ∉ EventCount.preSet n s := by rw [mem_preSet h, hp]; simp
  have e1 := ho.preSet h h'
  have e2 := ho.blockedSet h h'
  have e3 := ho.wokenSet h h' (by rw [hcom]; simp)
  rw [hpre, if_neg Bool.false_ne_true, Finset.erase_eq_of_notMem hn] at e1
  rw [hcom, if_neg Bool.false_ne_true] at e2
  refine .inr ⟨_, ho.trace, ?_⟩
  rintro a' ⟨sig, hs, hcard, rfl⟩
  rw [e1] at hs
  rw [hsig] at hcard
  have hts : t ∉ sig := fun hc => hn (hs hc)
  refine ⟨absOf n s sig, ⟨sig, hs, hcard, rfl⟩, ?_⟩
  have hgoal : absOf n s' sig = { absOf n s sig with
      blocked := (EventCount.blockedSet n s).erase t
      notified := (sig ∪ EventCount.wokenSet n s).erase t } := by
    simp only [absOf, e1, e2, e3, Waiting.mk.injEq, true_and]
    rw [Finset.erase_union_distrib, Finset.erase_eq_of_notMem hts]
  rw [hgoal]
  exact .wake ht (by simp [absOf, hw])

/-! ## Operations of a `Notify` -/

/-- A `Notify` takes effect; no thread with a waiter moves. -/
structure NOp (n : Nat) (s s' : St) (all : Bool) : Prop where
  pc : s'.pc = s.pc
  trace : s'.log.trace = s.log.trace ++ [.notify all]

theorem NOp.sets {all : Bool} (ho : NOp n s s' all) :
    preSet n s' = preSet n s ∧ blockedSet n s' = blockedSet n s := by
  rw [preSet, blockedSet, ho.pc]
  exact ⟨rfl, rfl⟩

theorem NOp.wokenSet {all : Bool} (ho : NOp n s s' all)
    (hrole : ∀ u, s'.log.role u = .stacked ↔ s.log.role u = .stacked) :
    wokenSet n s' = wokenSet n s := by
  simp only [EventCount.wokenSet, ho.sets.2, ne_eq, hrole]

/-- `Notify(false)` signals a thread in pre-wait state. -/
theorem NOp.signal (ho : NOp n s s' false) (h : Inv n s)
    (hrole : ∀ u, s'.log.role u = .stacked ↔ s.log.role u = .stacked)
    (hsig : (signalsOf s'.mState).toNat = (signalsOf s.mState).toNat + 1) : Back n s s' := by
  obtain ⟨e1, e2⟩ := ho.sets
  have e3 := ho.wokenSet hrole
  refine .inr ⟨_, ho.trace, ?_⟩
  rintro a' ⟨sig, hs, hcard, rfl⟩
  rw [e1] at hs
  rw [hsig] at hcard
  obtain ⟨u, hu⟩ : sig.Nonempty := Finset.card_pos.mp (by omega)
  have huw := not_mem_wokenSet h (hs hu)
  refine ⟨absOf n s (sig.erase u), ⟨_, fun x hx => hs (Finset.mem_of_mem_erase hx), ?_, rfl⟩, ?_⟩
  · rw [Finset.card_erase_of_mem hu, hcard, Nat.add_sub_cancel]
  · have hgoal : absOf n s' sig = { absOf n s (sig.erase u) with
        notified := insert u (sig.erase u ∪ EventCount.wokenSet n s) } := by
      simp only [absOf, e1, e2, e3, Waiting.mk.injEq, true_and]
      rw [← Finset.insert_union, Finset.insert_erase hu]
    rw [hgoal]
    exact .notifyOne (Finset.mem_union_left _ (hs hu)) (by simp [absOf, huw])

/-- `Notify(false)` pops a waiter. -/
theorem NOp.pop (ho : NOp n s s' false) (h : Inv n s) {w : Nat} (hw : s.log.role w = .stacked)
    (hw' : s'.log.role w ≠ .stacked) (hrole : ∀ u, u ≠ w → s'.log.role u = s.log.role u)
    (hsig : (signalsOf s'.mState).toNat = (signalsOf s.mState).toNat) : Back n s s' := by
  obtain ⟨e1, e2⟩ := ho.sets
  have hb : w ∈ blockedSet n s := by
    rw [mem_blockedSet h]
    exact (h.waiter w).role.mp (by rw [hw]; simp)
  have hn : w ∉ preSet n s := fun hc => by
    have := Pc.committed_of_pre ((mem_preSet h).mp hc)
    rw [(mem_blockedSet h).mp hb] at this
    cases this
  have hnw : w ∉ EventCount.wokenSet n s := by simp [mem_wokenSet h, hw]
  have e3 : EventCount.wokenSet n s' = insert w (EventCount.wokenSet n s) := by
    ext u
    by_cases hu : u = w
    · subst hu
      simp [EventCount.wokenSet, e2, hb, hw']
    · simp [EventCount.wokenSet, e2, hu, hrole u hu]
  refine .inr ⟨_, ho.trace, ?_⟩
  rintro a' ⟨sig, hs, hcard, rfl⟩
  rw [e1] at hs
  rw [hsig] at hcard
  have hws : w ∉ sig := fun hc => hn (hs hc)
  refine ⟨absOf n s sig, ⟨sig, hs, hcard, rfl⟩, ?_⟩
  have hgoal : absOf n s' sig = { absOf n s sig with
      notified := insert w (sig ∪ EventCount.wokenSet n s) } := by
    simp only [absOf, e1, e2, e3, Waiting.mk.injEq, true_and]
    rw [Finset.union_insert]
  rw [hgoal]
  exact .notifyOne (Finset.mem_union_right _ hb) (by simp [absOf, hws, hnw])

theorem wokenSet_of_none (hst : ∀ u, s.log.role u ≠ .stacked) : wokenSet n s = blockedSet n s := by
  rw [wokenSet, Finset.filter_true_of_mem fun u _ => hst u]

/-- `Notify` finds nobody to notify. -/
theorem NOp.easy {all : Bool} (ho : NOp n s s' all) (h : Inv n s)
    (hrole : s'.log.role = s.log.role) (hword : s'.mState = s.mState)
    (hst : ∀ u, s.log.role u ≠ .stacked)
    (heq : (waitersOf s.mState).toNat = (signalsOf s.mState).toNat) : Back n s s' := by
  obtain ⟨e1, e2⟩ := ho.sets
  have e3 := ho.wokenSet fun u => by rw [hrole]
  refine .inr ⟨_, ho.trace, ?_⟩
  rintro a' ⟨sig, hs, hcard, rfl⟩
  rw [e1] at hs
  rw [hword] at hcard
  have hall : sig = preSet n s :=
    Finset.eq_of_subset_of_card_le hs (by rw [h.card_preSet, hcard, heq])
  have hgoal : absOf n s' sig = absOf n s sig := by simp only [absOf, e1, e2, e3]
  refine ⟨absOf n s sig, ⟨sig, hs, hcard, rfl⟩, ?_⟩
  have hnot : (absOf n s sig).notified = (absOf n s sig).pre ∪ (absOf n s sig).blocked := by
    simp only [absOf, wokenSet_of_none hst, hall]
  rw [hgoal]
  cases all with
  | false => exact .notifyNone (by rw [hnot])
  | true =>
    have hself : absOf n s sig = { absOf n s sig with
        notified := (absOf n s sig).pre ∪ (absOf n s sig).blocked } := by rw [← hnot]
    nth_rewrite 2 [hself]
    exact .notifyAll

/-- `Notify(true)` signals all threads in pre-wait state and empties the stack. -/
theorem NOp.all (ho : NOp n s s' true) (h : Inv n s) (hst : ∀ u, s'.log.role u ≠ .stacked)
    (hsig : (signalsOf s'.mState).toNat = (waitersOf s.mState).toNat) : Back n s s' := by
  obtain ⟨e1, e2⟩ := ho.sets
  refine .inr ⟨_, ho.trace, ?_⟩
  rintro a' ⟨sig, hs, hcard, rfl⟩
  rw [e1] at hs
  have hall : sig = preSet n s :=
    Finset.eq_of_subset_of_card_le hs (by rw [h.card_preSet, hcard, hsig])
  obtain ⟨sig₀, h1, h2⟩ := Finset.exists_subset_card_eq
    (s := preSet n s) (n := (signalsOf s.mState).toNat) (by rw [h.card_preSet]; exact h.signals)
  refine ⟨absOf n s sig₀, ⟨sig₀, h1, h2, rfl⟩, ?_⟩
  have hgoal : absOf n s' sig = { absOf n s sig₀ with
      notified := (absOf n s sig₀).pre ∪ (absOf n s sig₀).blocked } := by
    simp only [absOf, e1, e2, wokenSet_of_none hst, hall]
  rw [hgoal]
  exact .notifyAll

/-! ## Every step -/

/-- A step of a `Notify` that no abstract state sees. -/
theorem Back.notifyMove (hpc : s'.pc = s.pc) (htrace : s'.log.trace = s.log.trace)
    (hrole : ∀ u, s'.log.role u = .stacked ↔ s.log.role u = .stacked)
    (hsig : s'.mState = s.mState) : Back n s s' :=
  .quiet htrace (fun _ => by rw [hpc]) (fun _ => by rw [hpc]) hrole (by rw [hsig])

theorem commitWith_pre (state : Word64) :
    (commitWith state).pre = true ∧ (commitWith state).committed = false := by
  rw [commitWith]
  split <;> exact ⟨rfl, rfl⟩

/-- A step of a thread with a waiter. -/
theorem Inv.back_move {weak : Bool} (hn : n < 2 ^ 14 - 1) (h : Inv n s) (h' : Inv n s')
    (hm : EventCount.move s t weak = some s') : Back n s s' := by
  have hw := h.waiter t
  have hparts := Parts.self s.mState
  cases hp : s.pc t <;> rw [hp] at hw <;> simp only [EventCount.move, hp] at hm
  case idle => cases hm
  case ready => cases hm
  case prewaitCas state =>
    split at hm
    · rename_i hc
      obtain ⟨-, he⟩ := hc
      subst he
      obtain rfl := Option.some.inj hm
      have hle := h.wordOk.waiters
      have ho : Op s ((((s.goto t .ready).store (prewaitWord s.mState))).emit (.prewait t)) t .ready
          (.prewait t) := ⟨rfl, rfl, fun _ _ => rfl⟩
      exact ho.prewait h h' (by rw [hp]; rfl) (by rw [hp]; rfl) rfl
        (hparts.prewait (by omega)).signals
    · obtain rfl := Option.some.inj hm
      exact .move rfl (by rw [hp]; rfl) (by rw [hp]; rfl) rfl rfl rfl
  case cancelCas state =>
    split at hm
    · rename_i hc
      obtain ⟨-, he⟩ := hc
      subst he
      obtain rfl := Option.some.inj hm
      obtain ⟨p, hpw⟩ : ∃ p, (waitersOf s.mState).toNat = p + 1 :=
        ⟨_, (Nat.sub_add_cancel hw.known.2).symm⟩
      have hle := h.signals
      rw [hpw] at hparts hle
      have ho : Op s ((((s.goto t .idle).store (cancelWord s.mState))).emit (.cancel t)) t .idle
          (.cancel t) := ⟨rfl, rfl, fun _ _ => rfl⟩
      exact ho.cancel h h' (by rw [hp]; rfl) rfl rfl hpw (hparts.cancel hle).signals
    · obtain rfl := Option.some.inj hm
      exact .move rfl (by rw [hp]; rfl) (by rw [hp]; rfl) rfl rfl rfl
  case commitCas state =>
    split at hm
    · rename_i hc
      obtain ⟨-, he⟩ := hc
      subst he
      obtain ⟨p, hpw⟩ : ∃ p, (waitersOf s.mState).toNat = p + 1 :=
        ⟨_, (Nat.sub_add_cancel hw.known.2.2.1).symm⟩
      rw [hpw] at hparts
      split at hm
      · rename_i hs
        obtain rfl := Option.some.inj hm
        obtain ⟨g, hgw⟩ : ∃ g, (signalsOf s.mState).toNat = g + 1 :=
          ⟨_, (Nat.sub_add_cancel ((signalMask_ne_zero s.mState).mp hs)).symm⟩
        rw [hgw] at hparts
        have ho : Op s ((((s.goto t .idle).store (takeWord s.mState))).emit (.take t)) t .idle
            (.take t) := ⟨rfl, rfl, fun _ _ => rfl⟩
        refine ho.take h h' (by rw [hp]; rfl) rfl rfl ?_
        rw [hgw]
        exact congrArg (· + 1) hparts.take.signals
      · rename_i hs
        have hs' : (signalsOf s.mState).toNat = 0 :=
          Nat.eq_zero_of_not_pos fun hc => hs ((signalMask_ne_zero s.mState).mpr hc)
        have ht : t < n := h.range t (by rw [hp]; simp)
        have he : (s.mWaiters t).epoch = epochWord (s.log.pushes t) := hw.epoch
        have hpush := hparts.push (isLink_meOf (Nat.lt_of_lt_of_le ht (by omega)) (s.log.pushes t))
        rw [← he] at hpush
        have hs1 := Option.some.inj hm
        have ho : Op s s' t .commitEpoch (.park t) := by
          rw [← hs1]
          exact ⟨rfl, rfl, fun u hu => Function.update_of_ne hu ..⟩
        refine ho.park h h' (by rw [hp]; rfl) rfl rfl ?_ hs' ?_
        · rw [← hs1]
          exact Function.update_self ..
        · rw [← hs1]
          exact hpush.signals
    · obtain rfl := Option.some.inj hm
      obtain ⟨h1, h2⟩ := commitWith_pre s.mState
      exact .move rfl (by rw [hp, h1]; rfl) (by rw [hp, h2]; rfl) rfl rfl rfl
  case parkUnlock =>
    obtain rfl := Option.some.inj hm
    have hr : s.log.role t = .signaled := (hw.signaled (hw.role.mpr rfl)).mpr hw.known
    have ho : Op s ((((s.goto t .idle).write t { s.mWaiters t with mu := none }).become t
        .free).emit (.wake t)) t .idle (.wake t) :=
      ⟨rfl, rfl, fun u hu => Function.update_of_ne hu ..⟩
    exact ho.wake h h' (by rw [hp]; rfl) (by rw [hp]; rfl) rfl rfl (by rw [hr]; simp) rfl
  case commitLoad =>
    obtain rfl := Option.some.inj hm
    obtain ⟨h1, h2⟩ := commitWith_pre s.mState
    exact .move rfl (by rw [hp, h1]; rfl) (by rw [hp, h2]; rfl) rfl rfl rfl
  case parkCheck =>
    obtain rfl := Option.some.inj hm
    refine .move rfl ?_ ?_ rfl rfl rfl <;> rw [hp] <;> split <;> rfl
  all_goals try split at hm
  all_goals first
    | exact .move (by rw [← Option.some.inj hm]; rfl) (by rw [hp]; rfl) (by rw [hp]; rfl)
        (by rw [← Option.some.inj hm]; rfl) (by rw [← Option.some.inj hm]; rfl)
        (by rw [← Option.some.inj hm]; rfl)
    | cases hm

theorem notifyWith_idle {all : Bool} {state : Word64} (h : notifyWith all state = .idle) :
    topOf state = none ∧ waitersOf state = signalsOf state := by
  rw [notifyWith] at h
  split at h
  · assumption
  · split at h
    · cases h
    · split at h <;> cases h

/-- `Notify` has read `mState`. -/
theorem Inv.back_read (hn : n < 2 ^ 14 - 1) (h : Inv n s) (all : Bool) :
    Back n s (s.notifyRead m all) := by
  rw [St.notifyRead]
  split
  · rename_i hi
    obtain ⟨htop, heq⟩ := notifyWith_idle hi
    have ho : NOp n s (((s.read m).ngoto m .idle).emit (.notify all)) all := ⟨rfl, rfl⟩
    exact ho.easy h rfl rfl (h.top_none hn htop).2 (congrArg BitVec.toNat heq)
  · exact .notifyMove rfl rfl (fun _ => Iff.rfl) rfl

/-- The compare-exchange of `Notify(true)` succeeds. -/
theorem Inv.back_all (hn : n < 2 ^ 14 - 1) (h : Inv n s) {newstate : Word64}
    (hp : s.npc m = .cas true s.mState newstate) (hnew : newstate = notifyAllWord s.mState)
    (hm : EventCount.notifyMove s m false = some s') : Back n s s' := by
  simp only [EventCount.notifyMove, hp, and_self, if_true] at hm
  have hsig := (Parts.self s.mState).notifyAll.signals
  rw [← hnew] at hsig
  simp only [Bool.true_eq_false, false_and, if_false] at hm
  split at hm
  · rename_i htop
    have hs1 := Option.some.inj hm
    have ho : NOp n s s' true := by rw [← hs1]; exact ⟨rfl, rfl⟩
    refine ho.all h ?_ (by rw [← hs1]; exact hsig)
    rw [← hs1]
    exact (h.top_none hn htop).2
  · rename_i w htop
    have hs1 := Option.some.inj hm
    have ho : NOp n s s' true := by rw [← hs1]; exact ⟨rfl, rfl⟩
    refine ho.all h (fun u hu => ?_) (by rw [← hs1]; exact hsig)
    rw [← hs1] at hu
    dsimp only at hu
    split at hu
    · cases hu
    · contradiction

/-- The compare-exchange of `Notify(false)` succeeds, with fewer signals than threads in pre-wait
state. -/
theorem Inv.back_signal (h : Inv n s) {newstate : Word64}
    (hp : s.npc m = .cas false s.mState newstate) (hnew : newstate = signalWord s.mState)
    (hlt : (signalsOf s.mState).toNat < (waitersOf s.mState).toNat)
    (hm : EventCount.notifyMove s m false = some s') : Back n s s' := by
  simp only [EventCount.notifyMove, hp, and_self, if_true] at hm
  have hlt' : signalsOf s.mState < waitersOf s.mState := hlt
  have hb := toNat_waitersOf_lt s.mState
  have hsig := ((Parts.self s.mState).signal (by omega)).signals
  rw [← hnew] at hsig
  simp only [true_and, hlt', if_true] at hm
  have hs1 := Option.some.inj hm
  have ho : NOp n s s' false := by rw [← hs1]; exact ⟨rfl, rfl⟩
  exact ho.signal h (fun u => by rw [← hs1]; rfl) (by rw [← hs1]; exact hsig)

/-- The compare-exchange of `Notify(false)` succeeds, with a waiter to pop. -/
theorem Inv.back_pop (hn : n < 2 ^ 14 - 1) (h : Inv n s) {newstate nx : Word64} {w : Nat}
    (hp : s.npc m = .cas false s.mState newstate) (hnew : newstate = popWord s.mState nx)
    (heq : (signalsOf s.mState).toNat = (waitersOf s.mState).toNat)
    (htop : topOf s.mState = some w) (hlink : IsLink nx)
    (hm : EventCount.notifyMove s m false = some s') : Back n s s' := by
  simp only [EventCount.notifyMove, hp, and_self, if_true] at hm
  have hnlt : ¬signalsOf s.mState < waitersOf s.mState := fun hc => by
    have : (signalsOf s.mState).toNat < (waitersOf s.mState).toNat := hc
    omega
  obtain ⟨ws, -, -, h3, -⟩ := h.top hn htop
  have hsig := ((Parts.self s.mState).pop hlink).signals
  rw [← hnew] at hsig
  simp only [true_and, hnlt, if_false, htop, Bool.false_eq_true] at hm
  have hs1 := Option.some.inj hm
  have ho : NOp n s s' false := by rw [← hs1]; exact ⟨rfl, rfl⟩
  refine ho.pop h ((h3 w).mp List.mem_cons_self) ?_ (fun u hu => ?_) (by rw [← hs1]; exact hsig)
  · rw [← hs1]
    simp [St.become]
  · rw [← hs1]
    exact Function.update_of_ne hu ..

/-- A step of a `Notify`. -/
theorem Inv.back_notifyMove {weak : Bool} (hn : n < 2 ^ 14 - 1) (h : Inv n s)
    (hm : EventCount.notifyMove s m weak = some s') : Back n s s' := by
  cases hp : s.npc m
  case cas all state newstate =>
    by_cases hcas : weak = false ∧ s.mState = state
    · obtain ⟨rfl, rfl⟩ := hcas
      have hk := (h.notifier m).known
      rw [hp] at hk
      cases hk.2 with
      | all => exact h.back_all hn hp rfl hm
      | signal hlt => exact h.back_signal hp rfl hlt hm
      | pop heq hpop hlink => exact h.back_pop hn hp rfl heq hpop.1 hlink hm
    · simp only [EventCount.notifyMove, hp, hcas, if_false] at hm
      obtain rfl := Option.some.inj hm
      exact h.back_read hn all
  all_goals simp only [EventCount.notifyMove, hp] at hm
  case idle => cases hm
  case load all =>
    obtain rfl := Option.some.inj hm
    exact h.back_read hn all
  case unparkSet w nx state =>
    have hs1 := Option.some.inj hm
    have hr : s.log.role w = .held m := (h.notifier m).held (by rw [hp]; rfl)
    refine .notifyMove (by rw [← hs1]; rfl) (by rw [← hs1]; rfl) (fun u => ?_) (by rw [← hs1]; rfl)
    rw [← hs1]
    by_cases hu : u = w
    · subst hu
      simp [St.become, hr]
    · simp [St.become, hu, St.write, St.ngoto]
  case unparkWake w nx =>
    have hs1 := Option.some.inj hm
    split at hs1
    · rename_i hpk
      have hpc : s'.pc = Function.update s.pc w .parkLock := by rw [← hs1]; rfl
      exact .move hpc (by rw [hpk]; rfl) (by rw [hpk]; rfl) (by rw [← hs1]; rfl)
        (by rw [← hs1]; rfl) (by rw [← hs1]; rfl)
    · exact .notifyMove (by rw [← hs1]; rfl) (by rw [← hs1]; rfl) (fun u => by rw [← hs1]; rfl)
        (by rw [← hs1]; rfl)
  all_goals try split at hm
  all_goals first
    | exact .notifyMove (by rw [← Option.some.inj hm]; rfl) (by rw [← Option.some.inj hm]; rfl)
        (fun u => by rw [← Option.some.inj hm]; rfl) (by rw [← Option.some.inj hm]; rfl)
    | cases hm

/-- Every step of the program is none or one operation, for every abstract state that fits after
it. -/
theorem Inv.backward {l : Label} (hn : n < 2 ^ 14 - 1) (hf : Fresh s) (h : Inv n s)
    (hs : EventCount.step n s l = some s') : Back n s s' := by
  have h' := h.step hn hf hs
  cases l with
  | prewait t =>
    simp only [EventCount.step, Option.ite_none_right_eq_some] at hs
    obtain ⟨⟨-, hp⟩, hs⟩ := hs
    obtain rfl := Option.some.inj hs
    exact .move rfl (by rw [hp]; rfl) (by rw [hp]; rfl) rfl rfl rfl
  | cancelWait t =>
    simp only [EventCount.step, Option.ite_none_right_eq_some] at hs
    obtain ⟨hp, hs⟩ := hs
    obtain rfl := Option.some.inj hs
    exact .move rfl (by rw [hp]; rfl) (by rw [hp]; rfl) rfl rfl rfl
  | commitWait t =>
    simp only [EventCount.step, Option.ite_none_right_eq_some] at hs
    obtain ⟨hp, hs⟩ := hs
    obtain rfl := Option.some.inj hs
    exact .move rfl (by rw [hp]; rfl) (by rw [hp]; rfl) rfl rfl rfl
  | notify m all =>
    simp only [EventCount.step, Option.ite_none_right_eq_some] at hs
    obtain rfl := Option.some.inj hs.2
    exact .notifyMove rfl rfl (fun _ => Iff.rfl) rfl
  | move t weak => exact h.back_move hn h' hs
  | notifyMove m weak => exact h.back_notifyMove hn hs

/-- Every run of the program is a run of `Waiting`, which ends in any state that fits. -/
theorem trace_of_fits (hn : n < 2 ^ 14 - 1) (hs : (sys n).Reach (fun s _ => Fresh s) s)
    {a : Waiting} (ha : Fits n s a) : (waiting true).Trace s.log.trace a := by
  refine Reach.backward (fun s => s.log.trace) (Fits n) (fun s hr => reach_inv hn hr) ?_ ?_ hs a ha
  · rintro s rfl
    refine ⟨rfl, ?_⟩
    rintro a ⟨sig, h1, -, rfl⟩
    have e1 : preSet n start = ∅ := Finset.filter_false_of_mem fun _ _ => Bool.false_ne_true
    have e2 : blockedSet n start = ∅ := Finset.filter_false_of_mem fun _ _ => Bool.false_ne_true
    rw [e1, Finset.subset_empty] at h1
    simp [waiting, absOf, e1, e2, h1, wokenSet]
  · exact fun s l s' h hf hn' => h.backward hn hf hn'

/-- Without a `Notify` in progress, a thread blocked in `Park` is on the stack. -/
theorem Inv.parked_stacked (h : Inv n s) (hidle : ∀ m, s.npc m = .idle)
    (hp : s.pc t = .parked) : s.log.role t = .stacked := by
  have hw := h.waiter t
  rw [hp] at hw
  cases hr : s.log.role t with
  | stacked => rfl
  | free => exact absurd hr (hw.role.mpr rfl)
  | held m =>
    have := (h.notifier m).none_held (by rw [hidle m]; rfl) (by rw [hidle m]; rfl) t
    exact absurd hr this
  | signaled =>
    obtain ⟨m, hm⟩ := h.wake t hp ((hw.signaled (by rw [hr]; simp)).mp hr)
    rw [hidle m] at hm
    cases hm

/-- Fewer than `2^14 - 1` threads, each with its own waiter, and any callers of `Notify`: the
operations of every run, in the order in which they took effect, are a run of `Waiting` with
takeover, which ends with the same threads in pre-wait state and blocked. A thread that was popped
is notified there, and, when no `Notify` is in progress, a thread blocked in `Park` is not. -/
theorem event_count_refines (hn : n < 2 ^ 14 - 1)
    (hs : (sys n).Reach (fun s _ => Fresh s) s) :
    ∃ a, (waiting true).Trace s.log.trace a ∧
      (∀ t, t ∈ a.pre ↔ (s.pc t).pre = true) ∧
      (∀ t, t ∈ a.blocked ↔ (s.pc t).committed = true) ∧
      (a.notified ∩ a.pre).card = (signalsOf s.mState).toNat ∧
      (∀ t, (s.pc t).committed = true → s.log.role t ≠ .stacked → t ∈ a.notified) ∧
      ((∀ m, s.npc m = .idle) → ∀ t, s.pc t = .parked → t ∉ a.notified) := by
  have h := reach_inv hn hs
  obtain ⟨sig, h1, h2⟩ := Finset.exists_subset_card_eq
    (s := preSet n s) (n := (signalsOf s.mState).toNat) (by rw [h.card_preSet]; exact h.signals)
  refine ⟨absOf n s sig, trace_of_fits hn hs ⟨sig, h1, h2, rfl⟩, fun t => mem_preSet h,
    fun t => mem_blockedSet h, ?_, fun t hc hr => ?_, fun hidle t hp hmem => ?_⟩
  · rw [← h2]
    congr 1
    ext x
    simp only [absOf, Finset.mem_inter, Finset.mem_union]
    refine ⟨fun hx => hx.1.resolve_right (not_mem_wokenSet h hx.2), fun hx => ⟨.inl hx, h1 hx⟩⟩
  · exact Finset.mem_union_right _ ((mem_wokenSet h).mpr ⟨hc, hr⟩)
  · rcases Finset.mem_union.mp hmem with hx | hx
    · have := (mem_preSet h).mp (h1 hx)
      rw [hp] at this
      cases this
    · exact ((mem_wokenSet h).mp hx).2 (h.parked_stacked hidle hp)

theorem event_count_refines_short :
    shortState.log.trace = [.prewait 0, .park 0, .prewait 1, .notify false] ∧
    ∃ a, (waiting true).Trace shortState.log.trace a ∧
      (∀ t, t ∈ a.pre ↔ (shortState.pc t).pre = true) ∧
      (∀ t, t ∈ a.blocked ↔ (shortState.pc t).committed = true) ∧
      (a.notified ∩ a.pre).card = (signalsOf shortState.mState).toNat ∧
      (∀ t, (shortState.pc t).committed = true → shortState.log.role t ≠ .stacked →
        t ∈ a.notified) ∧
      ((∀ m, shortState.npc m = .idle) → ∀ t, shortState.pc t = .parked → t ∉ a.notified) :=
  ⟨by decide, event_count_refines (n := 2) (by decide) (reach_of_short shortLabels (by decide) (by rfl))⟩

/-! ## Without takeover -/

/-- Thread 0 is in pre-wait state and the only one that the `Notify(false)` can choose; thread 1
begins to wait, takes the signal, and thread 0 parks. -/
def stolenLabels : List Label :=
  [.prewait 0, .move 0 false, .move 0 false, .notify 0 false, .notifyMove 0 false,
    .notifyMove 0 false, .prewait 1, .move 1 false, .move 1 false, .commitWait 1, .move 1 false,
    .move 1 false, .move 1 false, .commitWait 0, .move 0 false, .move 0 false, .move 0 false,
    .move 0 false, .move 0 false, .move 0 false, .move 0 false, .move 0 false, .move 0 false]

/-- The state after `stolenLabels`. -/
def stolenState : St := (runLabels (step 2) start stolenLabels).getD start

/-- In a reachable state without a `Notify` in progress thread 0 is blocked in `Park`, although it
was the only thread that the one `Notify(false)` could choose; no run of `Waiting` without takeover
has these operations. -/
theorem not_event_count_refines :
    (sys 2).Reach (fun s _ => Fresh s) stolenState ∧ stolenState.pc 0 = .parked ∧
      (∀ m, stolenState.npc m = .idle) ∧
      stolenState.log.trace =
        [.prewait 0, .notify false, .prewait 1, .take 1, .park 0] ∧
      ¬∃ a, (waiting false).Trace stolenState.log.trace a := by
  refine ⟨reach_of_short stolenLabels (by decide) (by rfl), by decide, fun m => ?_, by decide, ?_⟩
  · match m with
    | 0 => decide
    | m + 1 => rfl
  · rintro ⟨a, ha⟩
    rw [show stolenState.log.trace = [Event.prewait 0, .notify false, .prewait 1, .take 1] ++
      [.park 0] from by decide] at ha
    obtain ⟨a4, h4, s5⟩ := ha.of_snoc _
    obtain ⟨a3, h3, s4⟩ := Trace.of_snoc [Event.prewait 0, .notify false, .prewait 1] h4
    obtain ⟨a2, h2, s3⟩ := Trace.of_snoc [Event.prewait 0, .notify false] h3
    obtain ⟨a1, h1, s2⟩ := Trace.of_snoc [Event.prewait 0] h2
    obtain ⟨a0, h0, s1⟩ := Trace.of_snoc [] h1
    have h0 := h0.of_nil
    cases h0
    -- the notification is that of thread 0
    cases s1 with
    | takeover hf => cases hf
    | prewait =>
      have e2 : a2 = ⟨{0}, ∅, {0}⟩ := by
        cases s2 with
        | notifyNone hall => simp at hall
        | notifyOne ht _ => simp_all
      subst e2
      cases s3 with
      | takeover hf => cases hf
      | prewait =>
        cases s4 with
        | take _ hmem => simp at hmem

end EventCount

end AsyncLib
