import AsyncLib.Concurrent.EventCountInv

/-!
# The steps of `Prewait`, `CancelWait`, `CommitWait` and `Park`

Each of them keeps the invariant of `EventCount` (`Inv.move`).
-/

namespace AsyncLib

namespace EventCount

open Sys

variable {n : Nat} {s s' : St} {t : Tid} {m : Nid}

/-! ## What is known of a word just read -/

theorem Inv.wordOk (h : Inv n s) : WordOk n s.mState := by
  refine ⟨h.signals, ?_⟩
  rw [h.count]
  exact count_le

theorem Inv.waiters_pos (h : Inv n s) (hp : (s.pc t).pre = true) :
    0 < (waitersOf s.mState).toNat := by
  have ht : t < n := h.range t fun hi => by rw [hi] at hp; cases hp
  rw [h.count]
  exact count_pos ht hp

theorem Inv.waiters_lt (h : Inv n s) (ht : t < n) (hp : (s.pc t).pre = false) :
    (waitersOf s.mState).toNat < n := by
  rw [h.count]
  exact count_lt ht hp

/-- The two ways on from a read of `mState` in `CommitWait`. -/
theorem commitWith_cases (state : Word64) :
    (commitWith state = .commitCas state ∧ 0 < (signalsOf state).toNat) ∨
      (commitWith state = .commitNext state ∧ (signalsOf state).toNat = 0) := by
  rw [commitWith]
  split
  · rename_i hs
    exact .inl ⟨rfl, (signalMask_ne_zero state).mp hs⟩
  · rename_i hs
    exact .inr ⟨rfl, Nat.eq_zero_of_not_pos fun hc => hs ((signalMask_ne_zero state).mpr hc)⟩

/-- `CommitWait` has read `mState`. -/
theorem Inv.commitRead (h : Inv n s) (hpre : (s.pc t).pre = true)
    (he : ∀ k, (s.pc t).epochs k = k) (hst : (s.mWaiters t).state = .kNotSignaled) :
    Inv n (s.goto t (commitWith s.mState)) := by
  have ht : t < n := h.range t fun hi => by rw [hi] at hpre; cases hpre
  have hpos := h.waiters_pos hpre
  have hw := h.waiter t
  have hcom : (s.pc t).committed = false ∧ (s.pc t).locked = false := by
    cases hp : s.pc t <;> rw [hp] at hpre <;> first | exact ⟨rfl, rfl⟩ | cases hpre
  obtain ⟨hc, hg⟩ | ⟨hc, hg⟩ := commitWith_cases s.mState <;> rw [hc]
  · refine h.quiet ht (hw.goto hcom.1.symm hcom.2.symm (he _).symm ⟨hst, h.wordOk, hpos, ?_⟩)
      hpre.symm (by simp)
    intro h0
    omega
  · exact h.quiet ht (hw.goto hcom.1.symm hcom.2.symm (he _).symm ⟨hst, h.wordOk, hpos, hg⟩)
      hpre.symm (by simp)

/-- `CommitWait` pushes its waiter. -/
theorem Inv.push (hn : n < 2 ^ 14 - 1) (h : Inv n s) {state : Word64}
    (hp : s.pc t = .commitCas state) (he : s.mState = state) (hg : (signalsOf state).toNat = 0)
    (hmove : s'.pc = Function.update s.pc t .commitEpoch) (hword : s'.mState =
      pushWord state (meOf t (s.mWaiters t).epoch)) (hW : s'.mWaiters = s.mWaiters)
    (hrole : s'.log.role = Function.update s.log.role t .stacked)
    (hpushes : s'.log.pushes = Function.update s.log.pushes t (s.log.pushes t + 1))
    (hnpc : s'.npc = s.npc) (hsince : s'.log.since = s.log.since) : Inv n s' := by
  have ht : t < n := h.range t (by rw [hp]; simp)
  have hw := h.waiter t
  rw [hp] at hw
  obtain ⟨hst, hok, hpos, hnext⟩ := hw.known
  have hfree : s.log.role t = .free := by
    by_contra hc
    cases hw.role.mp hc
  have hepoch : (s.mWaiters t).epoch = epochWord (s.log.pushes t) := hw.epoch
  have hnx : ∀ u, s'.next u = s.next u := fun u => by rw [St.next, hW]; rfl
  have hr : s'.log.role t = .stacked := by rw [hrole, Function.update_self]
  have hk : s'.log.pushes t = s.log.pushes t + 1 := by rw [hpushes, Function.update_self]
  have hr' : ∀ u, u ≠ t → s'.log.role u = s.log.role u := fun u hu => by
    rw [hrole, Function.update_of_ne hu]
  have hk' : ∀ u, u ≠ t → s'.log.pushes u = s.log.pushes u := fun u hu => by
    rw [hpushes, Function.update_of_ne hu]
  obtain ⟨p, hpw⟩ : ∃ p, (waitersOf s.mState).toNat = p + 1 :=
    ⟨(waitersOf s.mState).toNat - 1, by rw [he]; omega⟩
  have hparts : Parts s'.mState (meOf t (epochWord (s.log.pushes t))) p 0 := by
    rw [hword, hepoch, ← he]
    exact Parts.push (by rw [← hpw]; exact Parts.self _) (isLink_meOf (Nat.lt_of_lt_of_le ht (by omega)) _)
  refine h.wait_step ⟨⟨_, hmove⟩, fun _ _ => by rw [hW], hr', hk', hnpc, hsince⟩
    ⟨by omega, fun _ hc => by omega, fun m => ?_, fun m hc => ?_, fun m hc => ?_, fun m => by rw [hW]⟩
    ht ?_ ?_ ?_ ?_ ?_
  · simp [hr, hfree]
  · rw [hfree] at hc
    cases hc
  · rw [hfree] at hc
    cases hc
  · rw [hmove, Function.update_self, hW, hr, hk]
    refine ⟨by simp [Pc.committed], fun _ => Nat.succ_pos _, hw.epoch, hw.link, hw.lock, ?_, trivial⟩
    intro _
    rw [hst]
    simp
  · have e1 : (s.pc t).pre.toNat = 1 := by rw [hp]; rfl
    have e2 : (s'.pc t).pre.toNat = 0 := by rw [hmove, Function.update_self]; rfl
    rw [e1, e2, hparts.waiters, hpw, Nat.add_zero]
  · rw [hparts.waiters, hparts.signals]
    exact Nat.zero_le p
  · -- the new top of the stack points to the old one
    obtain ⟨l, h1, h2, h3⟩ := h.stack
    have hmem : t ∉ l := fun hc => by
      have := (h3 t).mp hc
      rw [hfree] at this
      cases this
    refine ⟨t :: l, ⟨?_, ?_⟩, List.nodup_cons.mpr ⟨hmem, h2⟩, fun w => ?_⟩
    · rw [hparts.link, hk]
      rfl
    · rw [hnx, St.next, hnext hg, ← he]
      refine h1.congr fun w hm => ⟨hnx w, hk' w fun hc => hmem (hc ▸ hm)⟩
    · by_cases hwt : w = t
      · simp [hwt, hr]
      · simp [hwt, hr' w hwt, h3]
  · rw [hmove, Function.update_self]
    intro hc
    cases hc

/-- `Park` returns. -/
theorem Inv.parkReturn (h : Inv n s) (hp : s.pc t = .parkUnlock) :
    Inv n (((s.goto t .idle).write t { s.mWaiters t with mu := none }).become t .free) := by
  have ht : t < n := h.range t (by rw [hp]; simp)
  have hw := h.waiter t
  rw [hp] at hw
  have hsig : s.log.role t = .signaled :=
    (hw.signaled (hw.role.mpr rfl)).mpr hw.known
  have hmu : (s.mWaiters t).mu = some .park := hw.lock.mpr rfl
  have hpc : Function.update s.pc t Pc.idle t = .idle := Function.update_self ..
  have hW : Function.update s.mWaiters t { s.mWaiters t with mu := none } t =
    { s.mWaiters t with mu := none } := Function.update_self ..
  have hr : Function.update s.log.role t Role.free t = .free := Function.update_self ..
  refine h.wait_step ⟨⟨_, rfl⟩, fun u hu => Function.update_of_ne hu .., fun u hu =>
    Function.update_of_ne hu .., fun _ _ => rfl, rfl, rfl⟩ ⟨Nat.le_refl _, fun hc => ?_, fun m => ?_,
    fun m hc => ?_, fun m hc => ?_, fun m => ?_⟩ ht ?_ ?_ h.signals ?_ ?_
  · cases hr.symm.trans hc
  · simp [St.become, hsig]
  · cases hsig.symm.trans hc
  · cases hsig.symm.trans hc
  · simp [St.become, St.write, hmu]
  · refine ⟨?_, ?_, ?_, ?_, ?_, ?_, ?_⟩
    all_goals simp only [St.become, St.write, St.goto, hpc, hW, hr]
    · exact ⟨fun hc => absurd rfl hc, fun hc => by cases hc⟩
    · exact fun hc => absurd rfl hc
    · exact hw.epoch
    · exact hw.link
    · simp [Pc.locked]
    · exact fun hc => absurd rfl hc
    · trivial
  · have e1 : (s.pc t).pre.toNat = 0 := by rw [hp]; rfl
    simp only [St.become, St.write, St.goto, hpc, e1]
    rfl
  · refine h.stack.frame rfl (fun w => ?_) fun w hst => ⟨?_, rfl⟩
    all_goals by_cases hwt : w = t
    · simp [St.become, hwt, hsig]
    · simp [St.become, St.write, St.goto, hwt]
    · rw [hwt, hsig] at hst
      cases hst
    · simp [St.next, St.become, St.write, St.goto, hwt]
  · intro hc
    cases hpc.symm.trans hc

/-- A step of a thread with a waiter. -/
theorem Inv.move {weak : Bool} (hn : n < 2 ^ 14 - 1) (h : Inv n s)
    (hm : move s t weak = some s') : Inv n s' := by
  have ht : t < n := h.range t fun hi => by simp [EventCount.move, hi] at hm
  have hw := h.waiter t
  have hparts := Parts.self s.mState
  cases hp : s.pc t <;> rw [hp] at hw <;> simp only [EventCount.move, hp] at hm
  case idle => cases hm
  case ready => cases hm
  case prewaitLoad =>
    cases hm
    have hlt := h.waiters_lt ht (by rw [hp]; rfl)
    exact h.quiet ht (hw.goto rfl rfl rfl ⟨h.wordOk, hlt⟩) (by rw [hp]; rfl) (by simp)
  case prewaitCas state =>
    have hlt := h.waiters_lt ht (by rw [hp]; rfl)
    split at hm
    · rename_i hc
      obtain ⟨-, he⟩ := hc
      subst he
      obtain rfl := Option.some.inj hm
      apply Inv.emit
      exact h.word ht (hw.goto rfl rfl rfl trivial) (by simp) (hparts.prewait (by omega)) rfl
        (Nat.le_succ_of_le h.signals) (a := 0) (b := 1) (by rw [hp]; rfl) rfl (Nat.add_zero _)
    · cases hm
      exact h.quiet ht (hw.goto rfl rfl rfl ⟨h.wordOk, hlt⟩) (by rw [hp]; rfl) (by simp)
  case cancelLoad =>
    cases hm
    have hpos := h.waiters_pos (t := t) (by rw [hp]; rfl)
    exact h.quiet ht (hw.goto rfl rfl rfl ⟨h.wordOk, hpos⟩) (by rw [hp]; rfl) (by simp)
  case cancelCas state =>
    have hpos := h.waiters_pos (t := t) (by rw [hp]; rfl)
    split at hm
    · rename_i hc
      obtain ⟨-, he⟩ := hc
      subst he
      obtain rfl := Option.some.inj hm
      obtain ⟨p, hpw⟩ : ∃ p, (waitersOf s.mState).toNat = p + 1 := ⟨_, (Nat.sub_add_cancel hpos).symm⟩
      have hle := h.signals
      rw [hpw] at hparts hle
      apply Inv.emit
      exact h.word ht (hw.goto rfl rfl rfl trivial) (by simp) (hparts.cancel hle) rfl
        (Nat.min_le_right _ _) (a := 1) (b := 0) (by rw [hp]; rfl) rfl (by rw [hpw, Nat.add_zero])
    · cases hm
      exact h.quiet ht (hw.goto rfl rfl rfl ⟨h.wordOk, hpos⟩) (by rw [hp]; rfl) (by simp)
  case commitState =>
    cases hm
    have hfree : s.log.role t = .free := by
      by_contra hc
      cases hw.role.mp hc
    refine h.own ht ⟨hw.role, hw.pushed, hw.epoch, hw.link, hw.lock, fun hc => absurd hfree hc, rfl⟩
      (by rw [hp]; rfl) (.inl rfl) (fun m hc => ?_) (fun _ => Iff.rfl) fun hc => by cases hc
    cases hfree.symm.trans hc
  case commitLoad =>
    cases hm
    exact h.commitRead (by rw [hp]; rfl) (by rw [hp]; exact fun _ => rfl) hw.known
  case commitNext state =>
    cases hm
    have hfree : s.log.role t = .free := by
      by_contra hc
      cases hw.role.mp hc
    obtain ⟨hst, hok, hpos, -⟩ := hw.known
    exact h.own ht ⟨hw.role, hw.pushed, hw.epoch, isLink_linkOf state, hw.lock, hw.signaled,
      hst, hok, hpos, fun _ => rfl⟩ (by rw [hp]; rfl) (.inr hfree) (fun _ _ _ => rfl)
      (fun _ => Iff.rfl) fun hc => by cases hc
  case commitCas state =>
    have hpos := h.waiters_pos (t := t) (by rw [hp]; rfl)
    split at hm
    · rename_i hc
      obtain ⟨-, he⟩ := hc
      split at hm
      · rename_i hs
        have hs' := (signalMask_ne_zero state).mp hs
        subst he
        obtain rfl := Option.some.inj hm
        obtain ⟨p, hpw⟩ : ∃ p, (waitersOf s.mState).toNat = p + 1 :=
          ⟨_, (Nat.sub_add_cancel hpos).symm⟩
        obtain ⟨g, hgw⟩ : ∃ g, (signalsOf s.mState).toNat = g + 1 :=
          ⟨_, (Nat.sub_add_cancel hs').symm⟩
        have hle := h.signals
        rw [hpw, hgw] at hparts hle
        apply Inv.emit
        exact h.word ht (hw.goto rfl rfl rfl trivial) (by simp) hparts.take rfl
          (Nat.le_of_succ_le_succ hle) (a := 1) (b := 0) (by rw [hp]; rfl) rfl
          (by rw [hpw, Nat.add_zero])
      · rename_i hs
        have hs' : (signalsOf state).toNat = 0 :=
          Nat.eq_zero_of_not_pos fun hc => hs ((signalMask_ne_zero state).mpr hc)
        cases hm
        exact h.push hn hp he hs' rfl rfl rfl rfl rfl rfl rfl
    · cases hm
      exact h.commitRead (by rw [hp]; rfl) (by rw [hp]; exact fun _ => rfl) hw.known.1
  case commitEpoch =>
    cases hm
    have hk : s.log.pushes t - 1 + 1 = s.log.pushes t :=
      Nat.sub_add_cancel (hw.pushed (hw.role.mpr rfl))
    have he : (s.mWaiters t).epoch + kEpochInc = epochWord (s.log.pushes t) := by
      rw [hw.epoch, epochWord_succ]
      exact congrArg epochWord hk
    exact h.own ht ⟨hw.role, hw.pushed, he, hw.link, hw.lock, hw.signaled, trivial⟩
      (by rw [hp]; rfl) (.inl rfl) (fun _ _ _ => rfl) (fun _ => Iff.rfl) fun hc => by cases hc
  case parkLock =>
    split at hm
    · rename_i hmu
      cases hm
      exact h.own ht ⟨hw.role, hw.pushed, hw.epoch, hw.link, ⟨fun _ => rfl, fun _ => rfl⟩,
        hw.signaled, trivial⟩ (by rw [hp]; rfl) (.inl rfl) (fun _ _ _ => rfl)
        (fun m => by simp [hmu]) fun hc => by cases hc
    · cases hm
  case parkCheck =>
    cases hm
    split
    · rename_i hst
      exact h.quiet ht (hw.goto rfl rfl rfl hst) (by rw [hp]; rfl) (by simp)
    · rename_i hst
      exact h.quiet ht (hw.goto rfl rfl rfl (not_not.mp hst)) (by rw [hp]; rfl) (by simp)
  case parkSet =>
    cases hm
    have hmu : (s.mWaiters t).mu = some .park := hw.lock.mpr rfl
    have hns : s.log.role t ≠ .signaled := fun hc =>
      hw.known ((hw.signaled (hw.role.mpr rfl)).mp hc)
    refine h.own ht ⟨hw.role, hw.pushed, hw.epoch, hw.link, hw.lock, fun _ => ?_, rfl⟩
      (by rw [hp]; rfl) (.inl rfl) (fun m _ hc => ?_) (fun _ => Iff.rfl) fun hc => by cases hc
    · exact ⟨fun hc => absurd hc hns, fun hc => by cases hc⟩
    · rw [hmu] at hc
      cases hc
  case parkWait =>
    cases hm
    have hmu : (s.mWaiters t).mu = some .park := hw.lock.mpr rfl
    have hst : (s.mWaiters t).state = .kWaiting := hw.known
    refine h.own ht ⟨hw.role, hw.pushed, hw.epoch, hw.link, ?_, hw.signaled, ?_⟩
      (by rw [hp]; rfl) (.inl rfl) (fun _ _ _ => rfl) (fun m => by simp [hmu]) fun _ hc => ?_
    · simp [Pc.locked]
    · change (s.mWaiters t).state ≠ .kNotSignaled
      rw [hst]
      simp
    · cases hst.symm.trans hc
  case parked =>
    split at hm
    · cases hm
      exact h.quiet ht (hw.goto rfl rfl rfl trivial) (by rw [hp]; rfl) (by simp)
    · cases hm
  case parkUnlock =>
    cases hm
    exact (h.parkReturn hp).emit _

end EventCount

end AsyncLib
