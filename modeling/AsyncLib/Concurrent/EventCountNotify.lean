import AsyncLib.Concurrent.EventCountSteps

/-!
# The steps of `Notify` and `Unpark`

Each of them keeps the invariant of `EventCount` (`Inv.notifyMove`).

* `Popping.unchanged`: the compare-exchange that pops a waiter writes the link that the waiter has
  now, since its push is still the one that was read.
* `Inv.notify_write`: a `Notify` writes to waiters that it holds, and locks and unlocks mutexes.
-/

namespace AsyncLib

namespace EventCount

open Sys

variable {n : Nat} {s s' : St} {t : Tid} {m : Nid}

/-- A step of the `Notify` of `m` keeps the invariant, if it keeps the waiters, the counters, the
stack, and what is known of the `Notify` itself. -/
theorem Inv.notify_step (h : Inv n s) (hpc : s'.pc = s.pc)
    (hw : ∀ t, WaiterOk n (s.pc t) (s'.mWaiters t) (s'.log.role t) (s'.log.pushes t))
    (hcount : (waitersOf s'.mState).toNat = (waitersOf s.mState).toNat)
    (hsignals : (signalsOf s'.mState).toNat ≤ (waitersOf s'.mState).toNat) (hstack : Stack s')
    (hframe : ∀ m', m' ≠ m → Frame s s' m') (hself : NotifierOk n s' m)
    (hwake : ∀ t, s.pc t = .parked → (s'.mWaiters t).state = .kSignaled →
      ∃ m, (s'.npc m).wakes = some t) : Inv n s' := by
  refine ⟨fun t => ?_, fun t => ?_, ?_, hsignals, hstack, fun m' => ?_, fun t => ?_⟩
  · rw [hpc]
    exact hw t
  · rw [hpc]
    exact h.range t
  · rw [hcount, hpc]
    exact h.count
  · by_cases hm : m' = m
    · exact hm ▸ hself
    · exact (h.notifier m').frame (hframe m' hm)
  · rw [hpc]
    exact hwake t

/-- The thread about to be woken is not the business of a `Notify` that wakes nobody. -/
theorem Inv.wake_frame (h : Inv n s) (hnpc : ∀ m', m' ≠ m → s'.npc m' = s.npc m')
    (hself : (s.npc m).wakes = none) (ht : s.pc t = .parked)
    (hst : (s.mWaiters t).state = .kSignaled) : ∃ m, (s'.npc m).wakes = some t := by
  obtain ⟨m', hm'⟩ := h.wake t ht hst
  have hne : m' ≠ m := by
    rintro rfl
    rw [hself] at hm'
    cases hm'
  exact ⟨m', by rw [hnpc m' hne]; exact hm'⟩

/-- A step of the `Notify` of `m` that changes its control point and what it has read. -/
theorem Inv.notify_quiet (h : Inv n s) {pc : NPc} (hpc : s'.pc = s.pc)
    (hnpc : s'.npc = Function.update s.npc m pc) (hword : s'.mState = s.mState)
    (hW : s'.mWaiters = s.mWaiters) (hrole : s'.log.role = s.log.role)
    (hpushes : s'.log.pushes = s.log.pushes)
    (hsince : ∀ m', m' ≠ m → s'.log.since m' = s.log.since m') (hknown : pc.Known n s' m)
    (hlocks : pc.locks = (s.npc m).locks) (hcur : pc.cur = (s.npc m).cur)
    (hrest : pc.rest s.succ = (s.npc m).rest s.succ) (hwakes : (s.npc m).wakes = none) :
    Inv n s' := by
  have hself : s'.npc m = pc := by rw [hnpc, Function.update_self]
  have hother : ∀ m', m' ≠ m → s'.npc m' = s.npc m' := fun m' hm => by
    rw [hnpc, Function.update_of_ne hm]
  have hnext : s'.next = s.next := by
    funext w
    rw [St.next, hW]
    rfl
  have hsucc : s'.succ = s.succ := by
    funext w
    rw [St.succ, hnext]
    rfl
  refine h.notify_step (m := m) hpc (fun t => ?_) (by rw [hword]) (by rw [hword]; exact h.signals) ?_
    (fun m' hm => ?_) ⟨?_, ?_, ?_⟩ fun t ht hst => ?_
  · rw [hW, hrole, hpushes]
    exact h.waiter t
  · refine h.stack.frame (by rw [hword]) (fun w => by rw [hrole]) fun w _ => ?_
    rw [hnext, hpushes]
    exact ⟨rfl, rfl⟩
  · exact ⟨hother m' hm, hsince m' hm, fun w => by rw [hpushes], fun w hr _ =>
      ⟨hrole ▸ hr, by rw [hnext]⟩, fun w => by rw [hrole], fun w _ => by rw [hnext],
      fun w _ _ => by rw [hW], fun w => by rw [hW]⟩
  · rw [hself]
    exact hknown
  · rw [hself, hlocks, hW]
    exact (h.notifier m).lock
  · rw [hself, hcur, hsucc, hrest, hrole]
    exact (h.notifier m).holds
  · rw [hW] at hst
    exact h.wake_frame hother hwakes ht hst

theorem Inv.stacked_lt (h : Inv n s) {w : Nat} (hr : s.log.role w ≠ .free) : w < n := by
  refine h.range w fun hi => ?_
  have := (h.waiter w).role.mp hr
  rw [hi] at this
  cases this

/-- The waiter on top of the stack of `mState`. -/
theorem Inv.top (hn : n < 2 ^ 14 - 1) (h : Inv n s) {w : Nat} (hw : topOf s.mState = some w) :
    ∃ ws, Stacked s.next s.log.pushes (s.next w) ws ∧ (w :: ws).Nodup ∧
      (∀ u, u ∈ w :: ws ↔ s.log.role u = .stacked) ∧
      linkOf s.mState = meOf w (epochWord (s.log.pushes w - 1)) := by
  obtain ⟨l, h1, h2, h3⟩ := h.stack
  have hlt : ∀ u ∈ l, u < 2 ^ 14 - 1 := fun u hu =>
    Nat.lt_trans (h.stacked_lt (by rw [(h3 u).mp hu]; simp)) hn
  obtain ⟨ws, rfl, hp, ht⟩ := h1.exists_cons hlt (by rw [topOf_linkOf]; exact hw)
  exact ⟨ws, ht, h2, h3, hp⟩

/-- With nothing on the stack, the link of `mState` is `kStackMask`. -/
theorem Inv.top_none (hn : n < 2 ^ 14 - 1) (h : Inv n s) (hw : topOf s.mState = none) :
    linkOf s.mState = kStackMask ∧ ∀ u, s.log.role u ≠ .stacked := by
  obtain ⟨l, h1, -, h3⟩ := h.stack
  have hlt : ∀ u ∈ l, u < 2 ^ 14 - 1 := fun u hu =>
    Nat.lt_trans (h.stacked_lt (by rw [(h3 u).mp hu]; simp)) hn
  obtain rfl := h1.eq_nil hlt (by rw [topOf_linkOf]; exact hw)
  exact ⟨h1, fun u hu => by cases (h3 u).mpr hu⟩

/-- What is known of `Notify` with a word that it has just read. -/
theorem Inv.notifyWith_known (hn : n < 2 ^ 14 - 1) (h : Inv n s) (all : Bool)
    (hs : s'.log.since m = s.log.pushes) (hp : s'.log.pushes = s.log.pushes) :
    (notifyWith all s.mState).Known n s' m := by
  rw [notifyWith]
  split
  · trivial
  split
  · rename_i hall
    subst hall
    exact ⟨h.wordOk, .all⟩
  rename_i heasy hall
  have hall : all = false := Bool.not_eq_true _ ▸ hall
  subst hall
  split
  · rename_i hlt
    exact ⟨h.wordOk, .signal hlt⟩
  · rename_i hge
    have heq : (signalsOf s.mState).toNat = (waitersOf s.mState).toNat := by
      have h1 : ¬(signalsOf s.mState).toNat < (waitersOf s.mState).toNat := hge
      have h2 := h.signals
      omega
    refine ⟨h.wordOk, heq, ?_⟩
    cases htop : topOf s.mState with
    | none => exact absurd ⟨htop, BitVec.eq_of_toNat_eq heq.symm⟩ heasy
    | some w =>
      obtain ⟨ws, -, -, h3, h4⟩ := h.top hn htop
      have hr : s.log.role w = .stacked := (h3 w).mp List.mem_cons_self
      have hne : s.log.role w ≠ .free := by rw [hr]; simp
      refine ⟨w, htop, h.stacked_lt hne, ?_⟩
      rw [hs, hp]
      exact ⟨(h.waiter w).pushed hne, Nat.le_refl _, h4⟩

theorem notifyWith_shape (all : Bool) (state : Word64) : (notifyWith all state).locks = none ∧
    (notifyWith all state).cur = [] ∧ ∀ f, (notifyWith all state).rest f = none := by
  rw [notifyWith]
  split
  · exact ⟨rfl, rfl, fun _ => rfl⟩
  split
  · exact ⟨rfl, rfl, fun _ => rfl⟩
  split <;> exact ⟨rfl, rfl, fun _ => rfl⟩

/-- `Notify` has read `mState`. -/
theorem Inv.notifyRead (hn : n < 2 ^ 14 - 1) (h : Inv n s) (all : Bool)
    (hl : (s.npc m).locks = none) (hc : (s.npc m).cur = [])
    (hr : (s.npc m).rest s.succ = none) (hw : (s.npc m).wakes = none) :
    Inv n (s.notifyRead m all) := by
  obtain ⟨h1, h2, h3⟩ := notifyWith_shape all s.mState
  have hsince : ∀ m', m' ≠ m → Function.update s.log.since m s.log.pushes m' = s.log.since m' :=
    fun m' hm => Function.update_of_ne hm ..
  have hq : Inv n ((s.read m).ngoto m (notifyWith all s.mState)) :=
    h.notify_quiet rfl rfl rfl rfl rfl rfl hsince
      (h.notifyWith_known hn all (Function.update_self ..) rfl) (h1.trans hl.symm)
      (h2.trans hc.symm) ((h3 _).trans hr.symm) hw
  rw [St.notifyRead]
  split
  · rename_i hi
    rw [hi] at hq
    exact hq.emit _
  · exact hq

/-- No waiter is held by a `Notify` that has not popped one. -/
theorem NotifierOk.none_held (h : NotifierOk n s m) (hc : (s.npc m).cur = [])
    (hr : (s.npc m).rest s.succ = none) (w : Nat) : s.log.role w ≠ .held m := by
  obtain ⟨c, h1, -, h3⟩ := h.holds
  rw [hr] at h1
  obtain rfl := h1.eq_nil
  intro hw
  have := (h3 w).mp hw
  rw [hc] at this
  cases this

/-- `Notify` changes the counters of the word and returns. -/
theorem Inv.notify_word (h : Inv n s) {w lk : Word64} {p g : Nat} (hparts : Parts w lk p g)
    (hlink : lk = linkOf s.mState) (hp : p = (waitersOf s.mState).toNat) (hg : g ≤ p)
    (hl : (s.npc m).locks = none) (hc : (s.npc m).cur = [])
    (hr : (s.npc m).rest s.succ = none) (hwk : (s.npc m).wakes = none) :
    Inv n ((s.store w).ngoto m .idle) := by
  have hself : ((s.store w).ngoto m .idle).npc m = .idle := Function.update_self ..
  have hother : ∀ m', m' ≠ m → ((s.store w).ngoto m .idle).npc m' = s.npc m' := fun m' hm =>
    Function.update_of_ne hm ..
  have hnone := (h.notifier m).none_held hc hr
  refine h.notify_step (m := m) rfl h.waiter ?_ ?_ ?_ (fun m' hm => ?_) ⟨?_, ?_, [], ?_, ?_, ?_⟩
    fun t ht hst => h.wake_frame hother hwk ht hst
  · exact hparts.waiters.trans hp
  · change (signalsOf w).toNat ≤ (waitersOf w).toNat
    rw [hparts.waiters, hparts.signals]
    exact hg
  · exact h.stack.frame (hparts.link.trans hlink) (fun _ => Iff.rfl) fun _ _ => ⟨rfl, rfl⟩
  · exact ⟨hother m' hm, rfl, fun _ => Nat.le_refl _, fun _ hr _ => ⟨hr, rfl⟩, fun _ => Iff.rfl,
      fun _ _ => rfl, fun _ _ _ => rfl, fun _ => Iff.rfl⟩
  · rw [hself]
    trivial
  · rw [hself]
    intro u
    have hu := (h.notifier m).lock u
    rw [hl] at hu
    exact hu
  · rw [hself]
    rfl
  · rw [hself]
    exact List.nodup_nil
  · rw [hself]
    exact fun u => ⟨fun hu => absurd hu (hnone u), fun hu => by cases hu⟩

/-- A popped waiter is held by the `Notify` that popped it. -/
theorem WaiterOk.pop {pc : Pc} {W : Waiter} {k : Nat} (h : WaiterOk n pc W .stacked k) :
    WaiterOk n pc W (.held m) k := by
  have hc : pc.committed = true := h.role.mp (by simp)
  have hs : W.state ≠ .kSignaled := fun hc => by cases (h.signaled (by simp)).mpr hc
  exact ⟨⟨fun _ => hc, fun _ => by simp⟩, fun _ => h.pushed (by simp), h.epoch, h.link, h.lock,
    fun _ => by simp [hs], h.known⟩

/-- `Notify(true)` takes the whole stack. -/
theorem Inv.notifyAll (hn : n < 2 ^ 14 - 1) (h : Inv n s) {w : Nat} (htop : topOf s.mState = some w)
    (hl : (s.npc m).locks = none) (hc : (s.npc m).cur = [])
    (hr : (s.npc m).rest s.succ = none) (hwk : (s.npc m).wakes = none)
    (hpc : s'.pc = s.pc) (hnpc : s'.npc = Function.update s.npc m (.unparkNext w))
    (hword : s'.mState = notifyAllWord s.mState) (hW : s'.mWaiters = s.mWaiters)
    (hrole : s'.log.role = fun u => if s.log.role u = .stacked then .held m else s.log.role u)
    (hpushes : s'.log.pushes = s.log.pushes) (hsince : s'.log.since = s.log.since) : Inv n s' := by
  have hself : s'.npc m = .unparkNext w := by rw [hnpc, Function.update_self]
  have hother : ∀ m', m' ≠ m → s'.npc m' = s.npc m' := fun m' hm => by
    rw [hnpc, Function.update_of_ne hm]
  have hnone := (h.notifier m).none_held hc hr
  have hnext : s'.next = s.next := by
    funext u
    rw [St.next, hW]
    rfl
  have hsucc : s'.succ = s.succ := by
    funext u
    rw [St.succ, hnext]
    rfl
  have hparts : Parts s'.mState kStackMask _ _ := hword ▸ (Parts.self s.mState).notifyAll
  have hnst : ∀ u, s'.log.role u ≠ .stacked := fun u => by
    rw [hrole]
    dsimp only
    split
    · simp
    · assumption
  obtain ⟨ws, h1, h2, h3, -⟩ := h.top hn htop
  have hheld : ∀ m' u, s'.log.role u = .held m' ↔
      (s.log.role u = .stacked ∧ m' = m) ∨ s.log.role u = .held m' := fun m' u => by
    rw [hrole]
    by_cases hu : s.log.role u = .stacked
    · simp [hu, eq_comm]
    · simp [hu]
  refine h.notify_step (m := m) hpc (fun t => ?_) ?_ ?_ ⟨[], ?_, List.nodup_nil, fun u => ?_⟩
    (fun m' hm => ?_) ⟨?_, ?_, ws, ?_, ?_, ?_⟩ fun t ht hst => ?_
  · rw [hW, hrole, hpushes]
    dsimp only
    have ht := h.waiter t
    split
    · rename_i hst
      rw [hst] at ht
      exact ht.pop
    · exact ht
  · rw [hparts.waiters]
  · rw [hparts.waiters, hparts.signals]
  · exact hparts.link
  · exact ⟨fun hu => (by cases hu), fun hu => absurd hu (hnst u)⟩
  · refine ⟨hother m' hm, by rw [hsince], fun u => by rw [hpushes], fun u hu => absurd hu (hnst u),
      fun u => ?_, fun u _ => by rw [hnext], fun u _ _ => by rw [hW], fun u => by rw [hW]⟩
    rw [hheld]
    simp [hm]
  · rw [hself]
    trivial
  · rw [hself, hW]
    intro u
    have hu := (h.notifier m).lock u
    rw [hl] at hu
    exact hu
  · rw [hself, hsucc]
    exact h1.linked fun u hu =>
      Nat.lt_trans (h.stacked_lt (by rw [(h3 u).mp (List.mem_cons_of_mem w hu)]; simp)) hn
  · rw [hself]
    exact h2
  · intro u
    rw [hself, hheld]
    have hu := h3 u
    have := hnone u
    simp only [and_true, this, or_false]
    exact hu.symm
  · rw [hW] at hst
    exact h.wake_frame hother hwk ht hst

/-- A read of `next` that no push has made stale: the word is the one that was read, and fewer than
`2^22` pushes were made since. -/
theorem Popping.unchanged (hn : n < 2 ^ 14 - 1) (h : Inv n s) {w : Nat}
    (hp : Popping n s m s.mState w) (hf : s.log.pushes w < s.log.since m w + 2 ^ kEpochBits) :
    s.log.pushes w = s.log.since m w := by
  obtain ⟨htop, hw, h0, hle, hlink⟩ := hp
  obtain ⟨ws, -, -, -, h4⟩ := h.top hn htop
  have he := meOf_epoch (by omega) (hlink.symm.trans h4)
  rw [show kEpochBits = 22 from rfl] at hf
  omega

/-- `Notify(false)` pops the waiter on top of the stack. -/
theorem Inv.pop (hn : n < 2 ^ 14 - 1) (h : Inv n s) {w : Nat} (htop : topOf s.mState = some w)
    (hl : (s.npc m).locks = none) (hc : (s.npc m).cur = [])
    (hr : (s.npc m).rest s.succ = none) (hwk : (s.npc m).wakes = none) :
    Inv n (((s.store (popWord s.mState (s.next w))).ngoto m (.clear w)).become w (.held m)) := by
  obtain ⟨ws, h1, h2, h3, -⟩ := h.top hn htop
  have hst : s.log.role w = .stacked := (h3 w).mp List.mem_cons_self
  have hnone := (h.notifier m).none_held hc hr
  have hlk : IsLink (s.next w) := (h.waiter w).link
  have hparts := (Parts.self s.mState).pop hlk
  generalize hs' : ((s.store (popWord s.mState (s.next w))).ngoto m (.clear w)).become w
    (.held m) = s'
  have hself : s'.npc m = .clear w := by rw [← hs']; exact Function.update_self ..
  have hother : ∀ m', m' ≠ m → s'.npc m' = s.npc m' := fun m' hm => by
    rw [← hs']
    exact Function.update_of_ne hm ..
  have hword : s'.mState = popWord s.mState (s.next w) := by rw [← hs']; rfl
  have hW : s'.mWaiters = s.mWaiters := by rw [← hs']; rfl
  have hpushes : s'.log.pushes = s.log.pushes := by rw [← hs']; rfl
  have hsince : s'.log.since = s.log.since := by rw [← hs']; rfl
  have hrw : s'.log.role w = .held m := by rw [← hs']; exact Function.update_self ..
  have hru : ∀ u, u ≠ w → s'.log.role u = s.log.role u := fun u hu => by
    rw [← hs']
    exact Function.update_of_ne hu ..
  have hnext : s'.next = s.next := by
    funext u
    rw [St.next, hW]
    rfl
  rw [← hword] at hparts
  refine h.notify_step (m := m) (by rw [← hs']; rfl) (fun t => ?_) hparts.waiters ?_
    ⟨ws, ?_, h2.of_cons, fun u => ?_⟩ (fun m' hm => ?_) ⟨?_, ?_, [], ?_, ?_, ?_⟩ fun t ht hsg => ?_
  · rw [hW, hpushes]
    by_cases ht : t = w
    · subst ht
      have htw := h.waiter t
      rw [hst] at htw
      rw [hrw]
      exact htw.pop
    · rw [hru t ht]
      exact h.waiter t
  · rw [hparts.waiters, hparts.signals]
    exact h.signals
  · rw [hparts.link, hnext, hpushes]
    exact h1
  · by_cases hu : u = w
    · subst hu
      rw [hrw]
      exact ⟨fun hc => absurd hc (List.nodup_cons.mp h2).1, fun hc => by cases hc⟩
    · rw [hru u hu, ← h3 u, List.mem_cons]
      exact ⟨.inr, fun hc => hc.resolve_left hu⟩
  · refine ⟨hother m' hm, by rw [hsince], fun u => by rw [hpushes], fun u hu _ => ?_, fun u => ?_,
      fun u _ => by rw [hnext], fun u _ _ => by rw [hW], fun u => by rw [hW]⟩
    all_goals by_cases huw : u = w
    · rw [huw, hrw] at hu
      cases hu
    · exact ⟨(hru u huw).symm.trans hu, by rw [hnext]⟩
    · rw [huw, hrw, hst]
      simp [Ne.symm hm]
    · rw [hru u huw]
  · rw [hself]
    trivial
  · rw [hself, hW]
    intro u
    have hu := (h.notifier m).lock u
    rw [hl] at hu
    exact hu
  · rw [hself]
    rfl
  · rw [hself]
    simp [NPc.cur]
  · intro u
    rw [hself]
    by_cases hu : u = w
    · simp [NPc.cur, hu, hrw]
    · simp [NPc.cur, hu, hru u hu, hnone u]
  · rw [hW] at hsg
    exact h.wake_frame hother hwk ht hsg

/-- A step of the `Notify` of `m` that writes to waiter `w`, which it holds, or changes its mutex
only. -/
theorem Inv.notify_write (h : Inv n s) {w : Nat} {W : Waiter} {r : Role} {pc : NPc}
    (hpc : s'.pc = s.pc) (hnpc : s'.npc = Function.update s.npc m pc)
    (hword : s'.mState = s.mState) (hW : s'.mWaiters = Function.update s.mWaiters w W)
    (hrole : s'.log.role = Function.update s.log.role w r)
    (hpushes : s'.log.pushes = s.log.pushes) (hsince : s'.log.since = s.log.since)
    (hw : WaiterOk n (s.pc w) W r (s.log.pushes w))
    (hcase : (s.log.role w = .held m ∧ (r = .held m ∨ r = .signaled)) ∨
      (r = s.log.role w ∧ W.next = (s.mWaiters w).next ∧ W.state = (s.mWaiters w).state))
    (hmu : ∀ m', m' ≠ m → (W.mu = some (.unpark m') ↔ (s.mWaiters w).mu = some (.unpark m')))
    (hself : NotifierOk n s' m)
    (hwake : ∀ t, s.pc t = .parked → (s'.mWaiters t).state = .kSignaled →
      ∃ m, (s'.npc m).wakes = some t) : Inv n s' := by
  have hother : ∀ m', m' ≠ m → s'.npc m' = s.npc m' := fun m' hm => by
    rw [hnpc, Function.update_of_ne hm]
  have hWw : s'.mWaiters w = W := by rw [hW, Function.update_self]
  have hWu : ∀ u, u ≠ w → s'.mWaiters u = s.mWaiters u := fun u hu => by
    rw [hW, Function.update_of_ne hu]
  have hrw : s'.log.role w = r := by rw [hrole, Function.update_self]
  have hru : ∀ u, u ≠ w → s'.log.role u = s.log.role u := fun u hu => by
    rw [hrole, Function.update_of_ne hu]
  have hnu : ∀ u, u ≠ w → s'.next u = s.next u := fun u hu => by rw [St.next, hWu u hu]; rfl
  -- neither stacked nor held by another, before or after, unless nothing but the mutex changes
  have hst : (r = .stacked ↔ s.log.role w = .stacked) ∧
      (s.log.role w = .stacked → W.next = (s.mWaiters w).next) := by
    rcases hcase with ⟨h1, h2 | h2⟩ | ⟨h1, h2, -⟩
    · simp [h1, h2]
    · simp [h1, h2]
    · exact ⟨by rw [h1], fun _ => h2⟩
  have hhd : ∀ m', m' ≠ m → (r = .held m' ↔ s.log.role w = .held m') ∧
      (s.log.role w = .held m' → W.next = (s.mWaiters w).next ∧
        W.state = (s.mWaiters w).state) := by
    intro m' hm
    rcases hcase with ⟨h1, h2 | h2⟩ | ⟨h1, h2⟩
    · simp [h1, h2, Ne.symm hm]
    · simp [h1, h2, Ne.symm hm]
    · exact ⟨by rw [h1], fun _ => h2⟩
  refine h.notify_step (m := m) hpc (fun t => ?_) (by rw [hword]) (by rw [hword]; exact h.signals)
    (h.stack.frame (by rw [hword]) (fun u => ?_) fun u hu => ?_) (fun m' hm => ?_) hself hwake
  · rw [hpushes]
    by_cases ht : t = w
    · rw [ht, hWw, hrw]
      exact hw
    · rw [hWu t ht, hru t ht]
      exact h.waiter t
  · by_cases huw : u = w
    · rw [huw, hrw]
      exact hst.1
    · rw [hru u huw]
  · rw [hpushes]
    by_cases huw : u = w
    · subst huw
      rw [St.next, hWw]
      exact ⟨hst.2 hu, rfl⟩
    · exact ⟨hnu u huw, rfl⟩
  · refine ⟨hother m' hm, by rw [hsince], fun u => by rw [hpushes], fun u hu _ => ?_, fun u => ?_,
      fun u hu => ?_, fun u hu _ => ?_, fun u => ?_⟩
    all_goals by_cases huw : u = w
    · subst huw
      rw [hrw] at hu
      rw [St.next, hWw]
      exact ⟨hst.1.mp hu, hst.2 (hst.1.mp hu)⟩
    · exact ⟨(hru u huw).symm.trans hu, hnu u huw⟩
    · rw [huw, hrw]
      exact (hhd m' hm).1
    · rw [hru u huw]
    · subst huw
      rw [St.next, hWw]
      exact ((hhd m' hm).2 hu).1
    · exact hnu u huw
    · subst huw
      rw [hWw]
      exact ((hhd m' hm).2 hu).2
    · rw [hWu u huw]
    · rw [huw, hWw]
      exact hmu m' hm
    · rw [hWu u huw]

/-- A write to a waiter that keeps its link keeps the links that `Unpark` follows. -/
theorem succ_write {w : Nat} {W : Waiter} (hW : s'.mWaiters = Function.update s.mWaiters w W)
    (hn : W.next = (s.mWaiters w).next) : s'.succ = s.succ := by
  funext u
  rw [St.succ, St.next, hW]
  by_cases hu : u = w
  · subst hu
    rw [Function.update_self, hn]
    rfl
  · rw [Function.update_of_ne hu]
    rfl

theorem NotifierOk.held (h : NotifierOk n s m) {w : Nat} (hc : (s.npc m).cur = [w]) :
    s.log.role w = .held m := by
  obtain ⟨c, -, -, h3⟩ := h.holds
  refine (h3 w).mpr ?_
  rw [hc]
  exact List.mem_cons_self

/-- `Unpark` goes on with the next waiter. -/
theorem NotifierOk.loop {nx : Option Nat} {c : List Nat} (hnpc : s.npc m = unparkLoop nx)
    (hlock : ∀ w, (s.mWaiters w).mu ≠ some (.unpark m)) (h1 : Linked s.succ nx c) (h2 : c.Nodup)
    (h3 : ∀ w, s.log.role w = .held m ↔ w ∈ c) : NotifierOk n s m := by
  cases nx with
  | none =>
    obtain rfl := h1.eq_nil
    refine ⟨?_, fun w => ?_, [], ?_, ?_, ?_⟩ <;> rw [hnpc]
    · trivial
    · exact ⟨fun hc => absurd hc (hlock w), fun hc => by cases hc⟩
    · rfl
    · exact h2
    · exact h3
  | some w =>
    obtain ⟨ws, rfl, ht⟩ := h1.exists_cons
    refine ⟨?_, fun u => ?_, ws, ?_, ?_, ?_⟩ <;> rw [hnpc]
    · trivial
    · exact ⟨fun hc => absurd hc (hlock u), fun hc => by cases hc⟩
    · exact ht
    · exact h2
    · exact h3

/-- `w->next.store(kStackMask)` of the popped waiter. -/
theorem Inv.clear (h : Inv n s) {w : Nat} (hp : s.npc m = .clear w) :
    Inv n ((s.ngoto m (.unparkNext w)).write w { s.mWaiters w with next := kStackMask }) := by
  have hr : s.log.role w = .held m := (h.notifier m).held (by rw [hp]; rfl)
  have hw := h.waiter w
  obtain ⟨c, h1, h2, h3⟩ := (h.notifier m).holds
  rw [hp] at h1 h2 h3
  obtain rfl := h1.eq_nil
  generalize hs' : (s.ngoto m (.unparkNext w)).write w { s.mWaiters w with next := kStackMask } = s'
  have hW : s'.mWaiters = Function.update s.mWaiters w { s.mWaiters w with next := kStackMask } := by
    rw [← hs']
    rfl
  have hnpc : s'.npc = Function.update s.npc m (.unparkNext w) := by rw [← hs']; rfl
  have hself : s'.npc m = .unparkNext w := by rw [hnpc, Function.update_self]
  have hother : ∀ m', m' ≠ m → s'.npc m' = s.npc m' := fun m' hm => by
    rw [hnpc, Function.update_of_ne hm]
  have hstate : ∀ u, (s'.mWaiters u).state = (s.mWaiters u).state := fun u => by
    by_cases hu : u = w <;> simp [hW, hu]
  have hmu : ∀ u, (s'.mWaiters u).mu = (s.mWaiters u).mu := fun u => by
    by_cases hu : u = w <;> simp [hW, hu]
  refine h.notify_write (m := m) (w := w) (r := s.log.role w) (by rw [← hs']; rfl) hnpc
    (by rw [← hs']; rfl) hW (by rw [Function.update_eq_self, ← hs']; rfl) (by rw [← hs']; rfl)
    (by rw [← hs']; rfl) ?_ (.inl ⟨hr, .inl hr⟩) (fun _ _ => Iff.rfl) ⟨?_, fun u => ?_, [], ?_, ?_, ?_⟩
    fun t ht hst => ?_
  · refine ⟨hw.role, hw.pushed, hw.epoch, isLink_kStackMask, hw.lock, hw.signaled, ?_⟩
    -- its thread has committed, so it does not rely on the link
    have hc := hw.role.mp (by rw [hr]; simp)
    have hk := hw.known
    revert hc hk
    cases s.pc w <;> intro hc hk <;> first | exact hk | cases hc
  · rw [hself]
    trivial
  · rw [hself, hmu]
    have hu := (h.notifier m).lock u
    rw [hp] at hu
    exact hu
  · rw [hself]
    change topOf (s'.mWaiters w).next = none
    rw [hW, Function.update_self]
    exact topOf_kStackMask
  · rw [hself]
    exact h2
  · rw [hself, ← hs']
    exact h3
  · rw [hstate] at hst
    exact h.wake_frame hother (by rw [hp]; rfl) ht hst

/-- `Unpark` locks the mutex of the waiter. -/
theorem Inv.unparkLock (h : Inv n s) {w : Nat} {nx : Option Nat} (hp : s.npc m = .unparkLock w nx)
    (hfree : (s.mWaiters w).mu = none) :
    Inv n ((s.ngoto m (.unparkState w nx)).write w
      { s.mWaiters w with mu := some (.unpark m) }) := by
  have hw := h.waiter w
  have hlk := (h.notifier m).lock
  have hhold := (h.notifier m).holds
  rw [hp] at hlk hhold
  generalize hs' : (s.ngoto m (.unparkState w nx)).write w
    { s.mWaiters w with mu := some (.unpark m) } = s'
  have hW : s'.mWaiters = Function.update s.mWaiters w
      { s.mWaiters w with mu := some (.unpark m) } := by
    rw [← hs']
    rfl
  have hnpc : s'.npc = Function.update s.npc m (.unparkState w nx) := by rw [← hs']; rfl
  have hself : s'.npc m = .unparkState w nx := by rw [hnpc, Function.update_self]
  have hother : ∀ m', m' ≠ m → s'.npc m' = s.npc m' := fun m' hm => by
    rw [hnpc, Function.update_of_ne hm]
  have hstate : ∀ u, (s'.mWaiters u).state = (s.mWaiters u).state := fun u => by
    by_cases hu : u = w <;> simp [hW, hu]
  refine h.notify_write (m := m) (w := w) (r := s.log.role w) (by rw [← hs']; rfl) hnpc
    (by rw [← hs']; rfl) hW (by rw [Function.update_eq_self, ← hs']; rfl) (by rw [← hs']; rfl)
    (by rw [← hs']; rfl) ?_ (.inr ⟨rfl, rfl, rfl⟩) (fun m' hm => ?_) ⟨?_, fun u => ?_, ?_⟩
    fun t ht hst => ?_
  · refine ⟨hw.role, hw.pushed, hw.epoch, hw.link, ?_, hw.signaled, ?_⟩
    · have := hw.lock
      rw [hfree] at this
      simp only [Option.some.injEq, reduceCtorEq, false_iff] at this ⊢
      exact this
    · have hk := hw.known
      revert hk
      cases s.pc w <;> exact id
  · simp [hfree, Ne.symm hm]
  · rw [hself]
    trivial
  · rw [hself, hW]
    by_cases hu : u = w
    · subst hu
      simp [NPc.locks]
    · have := hlk u
      simp only [NPc.locks, reduceCtorEq, iff_false] at this
      simp [hu, this, NPc.locks, Ne.symm hu]
  · rw [hself, succ_write hW rfl, ← hs']
    exact hhold
  · rw [hstate] at hst
    exact h.wake_frame hother (by rw [hp]; rfl) ht hst

/-- A signalled waiter, whose mutex its thread does not hold. -/
theorem WaiterOk.signal {pc : Pc} {W : Waiter} {k : Nat} (h : WaiterOk n pc W (.held m) k)
    (hmu : W.mu = some (.unpark m)) :
    WaiterOk n pc { W with state := .kSignaled } .signaled k := by
  have hc : pc.committed = true := h.role.mp (by simp)
  have hl : pc.locked = false := by
    by_contra hl
    have := h.lock.mpr (Bool.not_eq_false _ ▸ hl)
    rw [hmu] at this
    cases this
  refine ⟨⟨fun _ => hc, fun _ => by simp⟩, fun _ => h.pushed (by simp), h.epoch, h.link, h.lock,
    fun _ => by simp, ?_⟩
  revert hc hl
  cases pc <;> intro hc hl <;>
    first | (cases hc; done) | (cases hl; done) | trivial | exact WaiterState.noConfusion

/-- `w->state = kSignaled`. -/
theorem Inv.unparkSet (h : Inv n s) {w : Nat} {nx : Option Nat} {state : WaiterState}
    (hp : s.npc m = .unparkSet w nx state) :
    Inv n (((s.ngoto m (.unparkUnlock w nx state)).write w
      { s.mWaiters w with state := .kSignaled }).become w .signaled) := by
  have hr : s.log.role w = .held m := (h.notifier m).held (by rw [hp]; rfl)
  have hw := h.waiter w
  have hlk := (h.notifier m).lock
  have hknown := (h.notifier m).known
  obtain ⟨c, h1, h2, h3⟩ := (h.notifier m).holds
  rw [hp] at h1 h2 h3 hlk hknown
  have hmu : (s.mWaiters w).mu = some (.unpark m) := (hlk w).mpr rfl
  rw [hr] at hw
  generalize hs' : ((s.ngoto m (.unparkUnlock w nx state)).write w
    { s.mWaiters w with state := .kSignaled }).become w .signaled = s'
  have hW : s'.mWaiters = Function.update s.mWaiters w
      { s.mWaiters w with state := .kSignaled } := by
    rw [← hs']
    rfl
  have hnpc : s'.npc = Function.update s.npc m (.unparkUnlock w nx state) := by rw [← hs']; rfl
  have hself : s'.npc m = .unparkUnlock w nx state := by rw [hnpc, Function.update_self]
  have hother : ∀ m', m' ≠ m → s'.npc m' = s.npc m' := fun m' hm => by
    rw [hnpc, Function.update_of_ne hm]
  have hrole : s'.log.role = Function.update s.log.role w .signaled := by rw [← hs']; rfl
  refine h.notify_write (m := m) (by rw [← hs']; rfl) hnpc (by rw [← hs']; rfl) hW hrole
    (by rw [← hs']; rfl) (by rw [← hs']; rfl) (hw.signal hmu) (.inl ⟨hr, .inr rfl⟩)
    (fun _ _ => Iff.rfl) ⟨?_, fun u => ?_, c, ?_, ?_, fun u => ?_⟩ fun t ht hst => ?_
  · rw [hself]
    trivial
  · rw [hself, hW]
    by_cases hu : u = w
    · subst hu
      rw [Function.update_self]
      exact hlk u
    · rw [Function.update_of_ne hu]
      exact hlk u
  · rw [hself, succ_write hW rfl]
    exact h1
  · rw [hself]
    exact (List.nodup_cons.mp h2).2
  · rw [hself, hrole]
    by_cases hu : u = w
    · subst hu
      rw [Function.update_self]
      exact ⟨fun hc => (by cases hc), fun hc => absurd hc (List.nodup_cons.mp h2).1⟩
    · rw [Function.update_of_ne hu, h3 u]
      exact ⟨fun hc => (List.mem_cons.mp hc).resolve_left hu, List.mem_cons_of_mem w⟩
  · by_cases htw : t = w
    · subst htw
      -- it was waiting: `Park` had set the state before the wait
      have hk := hw.known
      rw [ht] at hk
      have hns : (s.mWaiters t).state ≠ .kSignaled := fun hc => by
        cases (hw.signaled (by simp)).mpr hc
      refine ⟨m, ?_⟩
      rw [hself]
      change state = (s.mWaiters t).state at hknown
      change (s.mWaiters t).state ≠ .kNotSignaled at hk
      cases hst' : (s.mWaiters t).state with
      | kNotSignaled => exact absurd hst' hk
      | kSignaled => exact absurd hst' hns
      | kWaiting =>
        rw [hst'] at hknown
        rw [hknown]
        rfl
    · rw [hW, Function.update_of_ne htw] at hst
      exact h.wake_frame hother (by rw [hp]; rfl) ht hst

/-- `Unpark` gives the mutex back. -/
theorem Inv.unparkUnlock (h : Inv n s) {w : Nat} {nx : Option Nat} {state : WaiterState}
    (hp : s.npc m = .unparkUnlock w nx state) :
    Inv n ((s.ngoto m (if state = .kWaiting then .unparkWake w nx else unparkLoop nx)).write w
      { s.mWaiters w with mu := none }) := by
  have hw := h.waiter w
  have hlk := (h.notifier m).lock
  obtain ⟨c, h1, h2, h3⟩ := (h.notifier m).holds
  rw [hp] at h1 h2 h3 hlk
  have hmu : (s.mWaiters w).mu = some (.unpark m) := (hlk w).mpr rfl
  generalize hpc : (if state = .kWaiting then NPc.unparkWake w nx else unparkLoop nx) = pc
  generalize hs' : (s.ngoto m pc).write w { s.mWaiters w with mu := none } = s'
  have hW : s'.mWaiters = Function.update s.mWaiters w { s.mWaiters w with mu := none } := by
    rw [← hs']
    rfl
  have hnpc : s'.npc = Function.update s.npc m pc := by rw [← hs']; rfl
  have hself : s'.npc m = pc := by rw [hnpc, Function.update_self]
  have hother : ∀ m', m' ≠ m → s'.npc m' = s.npc m' := fun m' hm => by
    rw [hnpc, Function.update_of_ne hm]
  have hrole : s'.log.role = s.log.role := by rw [← hs']; rfl
  have hstate : ∀ u, (s'.mWaiters u).state = (s.mWaiters u).state := fun u => by
    by_cases hu : u = w <;> simp [hW, hu]
  have hnl : ∀ u, (s'.mWaiters u).mu ≠ some (.unpark m) := fun u => by
    by_cases hu : u = w
    · simp [hW, hu]
    · rw [hW, Function.update_of_ne hu]
      exact fun hc => hu (Option.some.inj ((hlk u).mp hc)).symm
  have hsucc := succ_write hW rfl
  have hok : NotifierOk n s' m := by
    split at hpc
    · subst hpc
      refine ⟨by rw [hself]; trivial, fun u => ?_, c, ?_, ?_, ?_⟩
      · rw [hself]
        exact ⟨fun hc => absurd hc (hnl u), fun hc => by cases hc⟩
      · rw [hself, hsucc]
        exact h1
      · rw [hself]
        exact h2
      · rw [hself, hrole]
        exact h3
    · subst hpc
      refine .loop hself hnl (hsucc ▸ h1) h2 ?_
      rw [hrole]
      exact h3
  refine h.notify_write (m := m) (w := w) (r := s.log.role w) (by rw [← hs']; rfl) hnpc
    (by rw [← hs']; rfl) hW (by rw [Function.update_eq_self, hrole]) (by rw [← hs']; rfl)
    (by rw [← hs']; rfl) ?_ (.inr ⟨rfl, rfl, rfl⟩) (fun m' hm => ?_) hok fun t ht hst => ?_
  · refine ⟨hw.role, hw.pushed, hw.epoch, hw.link, ?_, hw.signaled, ?_⟩
    · have := hw.lock
      rw [hmu] at this
      simp only [Option.some.injEq, reduceCtorEq, false_iff] at this ⊢
      exact this
    · have hk := hw.known
      revert hk
      cases s.pc w <;> exact id
  · simp [hmu, Ne.symm hm]
  · rw [hstate] at hst
    obtain ⟨m', hm'⟩ := h.wake t ht hst
    refine ⟨m', ?_⟩
    by_cases hmm : m' = m
    · subst hmm
      rw [hself, ← hpc]
      rw [hp] at hm'
      cases state with
      | kWaiting => exact hm'
      | kNotSignaled => cases hm'
      | kSignaled => cases hm'
    · rw [hother m' hmm]
      exact hm'

/-- `w->cv.notify_one()`. -/
theorem Inv.unparkWake (h : Inv n s) {w : Nat} {nx : Option Nat} (hp : s.npc m = .unparkWake w nx) :
    Inv n (if s.pc w = .parked then (s.ngoto m (unparkLoop nx)).goto w .parkLock
      else s.ngoto m (unparkLoop nx)) := by
  have hlk := (h.notifier m).lock
  obtain ⟨c, h1, h2, h3⟩ := (h.notifier m).holds
  rw [hp] at h1 h2 h3 hlk
  -- first the thread is woken, then the `Notify` goes on
  have hq : Inv n (if s.pc w = .parked then s.goto w .parkLock else s) := by
    split
    · rename_i hpk
      have ht : w < n := h.range w (by rw [hpk]; simp)
      have hw := h.waiter w
      rw [hpk] at hw
      exact h.quiet ht (hw.goto rfl rfl rfl trivial) (by rw [hpk]; rfl) (by simp)
    · exact h
  generalize hs1 : (if s.pc w = .parked then s.goto w .parkLock else s) = s1 at hq
  have hsame : s1.npc = s.npc ∧ s1.mWaiters = s.mWaiters ∧ s1.log = s.log := by
    rw [← hs1]
    split <;> exact ⟨rfl, rfl, rfl⟩
  have hwoken : s1.pc w ≠ .parked := by
    rw [← hs1]
    split
    · simp [St.goto]
    · assumption
  have hgoal : (if s.pc w = .parked then (s.ngoto m (unparkLoop nx)).goto w .parkLock
      else s.ngoto m (unparkLoop nx)) = s1.ngoto m (unparkLoop nx) := by
    rw [← hs1]
    split <;> rfl
  rw [hgoal]
  have hself : (s1.ngoto m (unparkLoop nx)).npc m = unparkLoop nx := Function.update_self ..
  have hother : ∀ m', m' ≠ m → (s1.ngoto m (unparkLoop nx)).npc m' = s1.npc m' := fun m' hm =>
    Function.update_of_ne hm ..
  have hsucc : s1.succ = s.succ := by
    funext u
    rw [St.succ, St.next, hsame.2.1]
    rfl
  refine hq.notify_step (m := m) rfl hq.waiter rfl hq.signals
    (hq.stack.frame rfl (fun _ => Iff.rfl) fun _ _ => ⟨rfl, rfl⟩) (fun m' hm => ?_)
    (.loop hself (fun u hc => ?_) (?_ : Linked s1.succ nx c) h2 ?_) fun t ht hst => ?_
  · exact ⟨hother m' hm, rfl, fun _ => Nat.le_refl _, fun _ hr _ => ⟨hr, rfl⟩, fun _ => Iff.rfl,
      fun _ _ => rfl, fun _ _ _ => rfl, fun _ => Iff.rfl⟩
  · change (s1.mWaiters u).mu = _ at hc
    rw [hsame.2.1] at hc
    cases (hlk u).mp hc
  · rw [hsucc]
    exact h1
  · change ∀ u, s1.log.role u = _ ↔ _
    rw [hsame.2.2]
    exact h3
  · obtain ⟨m', hm'⟩ := hq.wake t ht hst
    have hne : m' ≠ m := by
      rintro rfl
      rw [hsame.1, hp] at hm'
      cases hm'
      exact hwoken ht
    exact ⟨m', by rw [hother m' hne]; exact hm'⟩

theorem emit_ngoto (s : St) (e : Event) (pc : NPc) :
    (s.emit e).ngoto m pc = (s.ngoto m pc).emit e := rfl

theorem emit_become (s : St) (e : Event) (w : Nat) (r : Role) :
    (s.emit e).become w r = (s.become w r).emit e := rfl

/-- A step of a `Notify`. -/
theorem Inv.notifyMove {weak : Bool} (hn : n < 2 ^ 14 - 1) (hf : Fresh s) (h : Inv n s)
    (hm : notifyMove s m weak = some s') : Inv n s' := by
  have hnot := h.notifier m
  cases hp : s.npc m <;> simp only [EventCount.notifyMove, hp] at hm
  case idle => cases hm
  case load all =>
    cases hm
    exact h.notifyRead hn all (by rw [hp]; rfl) (by rw [hp]; rfl) (by rw [hp]; rfl) (by rw [hp]; rfl)
  case next state =>
    obtain rfl := Option.some.inj hm
    have hk := hnot.known
    rw [hp] at hk
    obtain ⟨hok, heq, w, hpop⟩ := hk
    have hst : (stackOf state).toNat = w := by
      have := hpop.1
      rw [topOf] at this
      split at this
      · cases this
      · exact Option.some.inj this
    rw [hst]
    exact h.notify_quiet rfl rfl rfl rfl rfl rfl (fun _ _ => rfl)
      ⟨hok, .pop heq hpop (h.waiter w).link fun _ _ => rfl⟩ (by rw [hp]; rfl) (by rw [hp]; rfl)
      (by rw [hp]; rfl) (by rw [hp]; rfl)
  case cas all state newstate =>
    have hl : (s.npc m).locks = none := by rw [hp]; rfl
    have hc : (s.npc m).cur = [] := by rw [hp]; rfl
    have hr : (s.npc m).rest s.succ = none := by rw [hp]; rfl
    have hwk : (s.npc m).wakes = none := by rw [hp]; rfl
    have hk := hnot.known
    rw [hp] at hk
    obtain ⟨hok, hplan⟩ := hk
    split at hm
    · rename_i hcas
      obtain ⟨-, he⟩ := hcas
      subst he
      cases hplan with
      | all =>
        simp only [Bool.true_eq_false, false_and, if_false, if_true] at hm
        split at hm
        · rename_i htop
          obtain rfl := Option.some.inj hm
          rw [emit_ngoto]
          exact (h.notify_word (Parts.self s.mState).notifyAll (h.top_none hn htop).1.symm rfl
            (Nat.le_refl _) hl hc hr hwk).emit _
        · rename_i w htop
          obtain rfl := Option.some.inj hm
          exact h.notifyAll hn htop hl hc hr hwk rfl rfl rfl rfl rfl rfl rfl
      | signal hlt =>
        have hlt' : signalsOf s.mState < waitersOf s.mState := hlt
        simp only [true_and, hlt', if_true] at hm
        obtain rfl := Option.some.inj hm
        have hb := toNat_waitersOf_lt s.mState
        rw [emit_ngoto]
        exact (h.notify_word ((Parts.self s.mState).signal (by omega)) rfl rfl
          (Nat.succ_le_of_lt hlt) hl hc hr hwk).emit _
      | @pop w nx heq hpop hlink hnext =>
        have hnlt : ¬signalsOf s.mState < waitersOf s.mState := fun hc => by
          have : (signalsOf s.mState).toNat < (waitersOf s.mState).toNat := hc
          omega
        have hst := hpop.unchanged hn h (hf m w (by rw [hp]; rfl))
        obtain ⟨ws, -, -, h3, -⟩ := h.top hn hpop.1
        obtain rfl := hnext hst ((h3 w).mp List.mem_cons_self)
        simp only [true_and, hnlt, if_false, hpop.1, Bool.false_eq_true] at hm
        obtain rfl := Option.some.inj hm
        rw [emit_ngoto, emit_become]
        exact (h.pop hn hpop.1 hl hc hr hwk).emit _
    · cases hm
      exact h.notifyRead hn all hl hc hr hwk
  case clear w =>
    obtain rfl := Option.some.inj hm
    exact h.clear hp
  case unparkNext w =>
    obtain rfl := Option.some.inj hm
    exact h.notify_quiet rfl rfl rfl rfl rfl rfl (fun _ _ => rfl) trivial (by rw [hp]; rfl)
      (by rw [hp]; rfl) (by rw [hp]; rfl) (by rw [hp]; rfl)
  case unparkLock w nx =>
    split at hm
    · rename_i hfree
      obtain rfl := Option.some.inj hm
      exact h.unparkLock hp hfree
    · cases hm
  case unparkState w nx =>
    obtain rfl := Option.some.inj hm
    exact h.notify_quiet rfl rfl rfl rfl rfl rfl (fun _ _ => rfl) rfl (by rw [hp]; rfl)
      (by rw [hp]; rfl) (by rw [hp]; rfl) (by rw [hp]; rfl)
  case unparkSet w nx state =>
    obtain rfl := Option.some.inj hm
    exact h.unparkSet hp
  case unparkUnlock w nx state =>
    obtain rfl := Option.some.inj hm
    exact h.unparkUnlock hp
  case unparkWake w nx =>
    obtain rfl := Option.some.inj hm
    exact h.unparkWake hp

end EventCount

end AsyncLib
