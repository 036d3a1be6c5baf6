import AsyncLib.Concurrent.PointerState

/-!
# The state word of `EventCount`

`async/concurrent/event_count.h`. `mState` packs the index of the top of the stack of parked
waiters, the number of threads in pre-wait state, the number of pending signals (14 bits each) and
an ABA counter of the stack (22 bits).

* `linkOf`, `waitersOf`, `signalsOf`: what the code reads of a word. The link is the index and the
  ABA counter, the part that is stored in `Waiter::next`.
* One group of lemmas for each word that `Prewait`, `CommitWait`, `CancelWait` and `Notify` compute.
* `eq_of_fields`: the three parts determine the word.
-/

namespace AsyncLib

namespace EventCount

open Bitfield

/-- The bits of the stack, of the number of waiters and of the number of signals. -/
def kCounterBits : Nat := 14

/-- `kCounterMask = (1ull << kCounterBits) - 1`. -/
def kCounterMask : Word64 := BitVec.ofNat 64 (2 ^ kCounterBits - 1)

/-- The mask of the stack. -/
def kStackMask : Word64 := kCounterMask

/-- Where the number of waiters begins. -/
def kWaiterShift : Nat := kCounterBits

/-- The mask of the number of waiters. -/
def kWaiterMask : Word64 := kCounterMask <<< kWaiterShift

/-- One waiter. -/
def kWaiterInc : Word64 := 1#64 <<< kWaiterShift

/-- Where the number of signals begins. -/
def kSignalShift : Nat := 2 * kCounterBits

/-- The mask of the number of signals. -/
def kSignalMask : Word64 := kCounterMask <<< kSignalShift

/-- One signal. -/
def kSignalInc : Word64 := 1#64 <<< kSignalShift

/-- Where the epoch begins. -/
def kEpochShift : Nat := 3 * kCounterBits

/-- The bits of the epoch. -/
def kEpochBits : Nat := 64 - kEpochShift

/-- `kEpochMask = ((1ull << kEpochBits) - 1) << kEpochShift`. -/
def kEpochMask : Word64 := BitVec.ofNat 64 (2 ^ kEpochBits - 1) <<< kEpochShift

/-- One epoch. -/
def kEpochInc : Word64 := 1#64 <<< kEpochShift

/-- `(state & kWaiterMask) >> kWaiterShift`. -/
def waitersOf (state : Word64) : Word64 := (state &&& kWaiterMask) >>> kWaiterShift

/-- `(state & kSignalMask) >> kSignalShift`. -/
def signalsOf (state : Word64) : Word64 := (state &&& kSignalMask) >>> kSignalShift

/-- `state & (kStackMask | kEpochMask)`. -/
def linkOf (state : Word64) : Word64 := state &&& (kStackMask ||| kEpochMask)

/-- `state & kStackMask`. -/
def stackOf (state : Word64) : Word64 := state &&& kStackMask

/-- The waiter on top of the stack, `none` where the code compares with `kStackMask`. -/
def topOf (state : Word64) : Option Nat :=
  if stackOf state = kStackMask then none else some (stackOf state).toNat

/-- `me = (w - &mWaiters[0]) | w->epoch` in `CommitWait`. -/
def meOf (w : Nat) (epoch : Word64) : Word64 := BitVec.ofNat 64 w ||| epoch

/-- The three assertions of `CheckState`. -/
def checkState (state : Word64) (waiter : Bool) : Bool :=
  decide (signalsOf state ≤ waitersOf state) &&
  decide (waitersOf state < BitVec.ofNat 64 (2 ^ kCounterBits - 1)) &&
  (!waiter || decide (0 < waitersOf state))

/-- The word that `Prewait` writes. -/
def prewaitWord (state : Word64) : Word64 := state + kWaiterInc

/-- The word that `CommitWait` writes when it takes a signal. -/
def takeWord (state : Word64) : Word64 := state - kWaiterInc - kSignalInc

/-- The word that `CommitWait` writes when it pushes the waiter `me`. -/
def pushWord (state me : Word64) : Word64 := ((state &&& kWaiterMask) - kWaiterInc) ||| me

/-- The word that `CancelWait` writes. -/
def cancelWord (state : Word64) : Word64 :=
  if waitersOf state = signalsOf state then state - kWaiterInc - kSignalInc else state - kWaiterInc

/-- The word that `Notify(true)` writes. -/
def notifyAllWord (state : Word64) : Word64 :=
  (state &&& kWaiterMask) ||| (waitersOf state <<< kSignalShift) ||| kStackMask

/-- The word that `Notify(false)` writes when it signals a thread in pre-wait state. -/
def signalWord (state : Word64) : Word64 := state + kSignalInc

/-- The word that `Notify(false)` writes when it pops the waiter whose `next` is `next`. -/
def popWord (state next : Word64) : Word64 := (state &&& (kWaiterMask ||| kSignalMask)) ||| next

/-! ## The parts of a word as numbers -/

theorem toNat_waitersOf (w : Word64) : (waitersOf w).toNat = w.toNat / 2 ^ 14 % 2 ^ 14 :=
  toNat_field (show 14 + 14 ≤ 64 by decide) w

theorem toNat_signalsOf (w : Word64) : (signalsOf w).toNat = w.toNat / 2 ^ 28 % 2 ^ 14 :=
  toNat_field (show 28 + 14 ≤ 64 by decide) w

theorem toNat_stackOf (w : Word64) : (stackOf w).toNat = w.toNat % 2 ^ 14 := by
  rw [stackOf, BitVec.toNat_and]
  exact Nat.and_two_pow_sub_one_eq_mod _ 14

theorem toNat_and_waiterMask (w : Word64) :
    (w &&& kWaiterMask).toNat = 2 ^ 14 * (w.toNat / 2 ^ 14 % 2 ^ 14) :=
  toNat_and_mask (show 14 + 14 ≤ 64 by decide) w

/-- The test `(state & kSignalMask) != 0`. -/
theorem signalMask_ne_zero (w : Word64) :
    w &&& kSignalMask ≠ 0#64 ↔ 0 < (signalsOf w).toNat := by
  have h : (w &&& kSignalMask).toNat = 2 ^ 28 * (w.toNat / 2 ^ 28 % 2 ^ 14) :=
    toNat_and_mask (show 28 + 14 ≤ 64 by decide) w
  rw [ne_eq, ← BitVec.toNat_inj, h, toNat_signalsOf]
  simp only [BitVec.toNat_ofNat]
  omega

theorem toNat_linkOf (w : Word64) :
    (linkOf w).toNat = 2 ^ 42 * (w.toNat / 2 ^ 42) + w.toNat % 2 ^ 14 := by
  have hs := toNat_stackOf w
  have he : (w &&& kEpochMask).toNat = 2 ^ 42 * (w.toNat / 2 ^ 42 % 2 ^ 22) :=
    toNat_and_mask (show 42 + 22 ≤ 64 by decide) w
  have hw := w.isLt
  rw [linkOf, BitVec.and_or_distrib_left, BitVec.or_comm, BitVec.toNat_or, he]
  rw [show w &&& kStackMask = stackOf w from rfl, hs,
    ← Nat.two_pow_add_eq_or_of_lt (show w.toNat % 2 ^ 14 < 2 ^ 42 by omega)]
  omega

theorem toNat_waitersOf_lt (w : Word64) : (waitersOf w).toNat < 2 ^ 14 :=
  toNat_field_lt (show 14 + 14 ≤ 64 by decide) w

theorem stackOf_linkOf (w : Word64) : stackOf (linkOf w) = stackOf w := by
  apply BitVec.eq_of_toNat_eq
  rw [toNat_stackOf, toNat_linkOf, toNat_stackOf]
  omega

/-- The three parts determine the word. -/
theorem eq_of_fields {w w' : Word64} (hl : linkOf w = linkOf w') (hw : waitersOf w = waitersOf w')
    (hs : signalsOf w = signalsOf w') : w = w' := by
  have e1 := congrArg BitVec.toNat hl
  have e2 := congrArg BitVec.toNat hw
  have e3 := congrArg BitVec.toNat hs
  rw [toNat_linkOf, toNat_linkOf] at e1
  rw [toNat_waitersOf, toNat_waitersOf] at e2
  rw [toNat_signalsOf, toNat_signalsOf] at e3
  apply BitVec.eq_of_toNat_eq
  omega

/-! ## Links -/

/-- A word with a link and nothing else. -/
def IsLink (w : Word64) : Prop := linkOf w = w

theorem isLink_linkOf (w : Word64) : IsLink (linkOf w) := by
  rw [IsLink, linkOf, linkOf, BitVec.and_assoc, BitVec.and_self]

theorem isLink_kStackMask : IsLink kStackMask := rfl

theorem isLink_zero : IsLink 0#64 := rfl

/-- A link beside the two counters `mid`. -/
theorem or_link {mid lk : Word64} (hm : linkOf mid = 0#64) (hl : IsLink lk) :
    linkOf (mid ||| lk) = lk ∧ waitersOf (mid ||| lk) = waitersOf mid ∧
      signalsOf (mid ||| lk) = signalsOf mid := by
  have hw : lk &&& kWaiterMask = 0#64 := by
    rw [← hl, linkOf, BitVec.and_assoc, show (kStackMask ||| kEpochMask) &&& kWaiterMask = 0#64 from rfl]
    exact BitVec.and_zero
  have hs : lk &&& kSignalMask = 0#64 := by
    rw [← hl, linkOf, BitVec.and_assoc, show (kStackMask ||| kEpochMask) &&& kSignalMask = 0#64 from rfl]
    exact BitVec.and_zero
  refine ⟨?_, ?_, ?_⟩
  · rw [linkOf, BitVec.and_or_distrib_right]
    change linkOf mid ||| linkOf lk = lk
    rw [hm, hl, BitVec.zero_or]
  · rw [waitersOf, BitVec.and_or_distrib_right, hw, BitVec.or_zero]
    rfl
  · rw [signalsOf, BitVec.and_or_distrib_right, hs, BitVec.or_zero]
    rfl

/-- The epoch of a waiter after `k` pushes. -/
def epochWord (k : Nat) : Word64 := BitVec.ofNat 64 (2 ^ 42 * k)

theorem toNat_epochWord (k : Nat) : (epochWord k).toNat = 2 ^ 42 * (k % 2 ^ 22) := by
  rw [epochWord, BitVec.toNat_ofNat]
  omega

theorem epochWord_succ (k : Nat) : epochWord k + kEpochInc = epochWord (k + 1) := by
  apply BitVec.eq_of_toNat_eq
  rw [BitVec.toNat_add, toNat_epochWord, toNat_epochWord, show kEpochInc.toNat = 2 ^ 42 from rfl]
  omega

/-- The assertion of `CommitWait` on the epoch. -/
theorem epochWord_check (k : Nat) : epochWord k &&& ~~~kEpochMask = 0#64 := by
  have h : epochWord k &&& kEpochMask = epochWord k := by
    apply BitVec.eq_of_toNat_eq
    rw [show (epochWord k &&& kEpochMask).toNat = _ from
      toNat_and_mask (show 42 + 22 ≤ 64 by decide) (epochWord k), toNat_epochWord]
    omega
  rw [← h, BitVec.and_assoc, show kEpochMask &&& ~~~kEpochMask = 0#64 from rfl]
  exact BitVec.and_zero

theorem toNat_meOf {w : Nat} (hw : w < 2 ^ 14) (k : Nat) :
    (meOf w (epochWord k)).toNat = 2 ^ 42 * (k % 2 ^ 22) + w := by
  rw [meOf, BitVec.or_comm, BitVec.toNat_or, toNat_epochWord, BitVec.toNat_ofNat,
    Nat.mod_eq_of_lt (show w < 2 ^ 64 by omega),
    ← Nat.two_pow_add_eq_or_of_lt (show w < 2 ^ 42 by omega)]

theorem isLink_meOf {w : Nat} (hw : w < 2 ^ 14) (k : Nat) : IsLink (meOf w (epochWord k)) := by
  apply BitVec.eq_of_toNat_eq
  rw [toNat_linkOf, toNat_meOf hw]
  omega

theorem topOf_linkOf (w : Word64) : topOf (linkOf w) = topOf w := by
  rw [topOf, topOf, stackOf_linkOf]

theorem topOf_kStackMask : topOf kStackMask = none := rfl

theorem topOf_meOf {w : Nat} (hw : w < 2 ^ 14 - 1) (k : Nat) :
    topOf (meOf w (epochWord k)) = some w := by
  have hs : (stackOf (meOf w (epochWord k))).toNat = w := by
    rw [toNat_stackOf, toNat_meOf (by omega)]
    omega
  have hne : stackOf (meOf w (epochWord k)) ≠ kStackMask := fun h => by
    rw [h, show kStackMask.toNat = 2 ^ 14 - 1 from rfl] at hs
    omega
  rw [topOf, if_neg hne, hs]

/-- Two pushes of one waiter with the same link. -/
theorem meOf_epoch {w k k' : Nat} (hw : w < 2 ^ 14)
    (h : meOf w (epochWord k) = meOf w (epochWord k')) : k % 2 ^ 22 = k' % 2 ^ 22 := by
  have := congrArg BitVec.toNat h
  rw [toNat_meOf hw, toNat_meOf hw] at this
  omega

/-! ## The words that the operations compute -/

/-- The word `w` has the link `lk`, `p` threads in pre-wait state and `g` signals. -/
structure Parts (w lk : Word64) (p g : Nat) : Prop where
  link : linkOf w = lk
  waiters : (waitersOf w).toNat = p
  signals : (signalsOf w).toNat = g

namespace Parts

variable {w lk : Word64} {p g : Nat}

theorem self (w : Word64) : Parts w (linkOf w) (waitersOf w).toNat (signalsOf w).toNat :=
  ⟨rfl, rfl, rfl⟩

theorem unique {w' : Word64} (h : Parts w lk p g) (h' : Parts w' lk p g) : w = w' :=
  eq_of_fields (h.link.trans h'.link.symm)
    (BitVec.eq_of_toNat_eq (h.waiters.trans h'.waiters.symm))
    (BitVec.eq_of_toNat_eq (h.signals.trans h'.signals.symm))

/-- The parts as equations between numbers, for `omega`. -/
theorem iff_toNat : Parts w lk p g ↔
    2 ^ 42 * (w.toNat / 2 ^ 42) + w.toNat % 2 ^ 14 = lk.toNat ∧
      w.toNat / 2 ^ 14 % 2 ^ 14 = p ∧ w.toNat / 2 ^ 28 % 2 ^ 14 = g := by
  rw [← toNat_linkOf, ← toNat_waitersOf, ← toNat_signalsOf, BitVec.toNat_inj]
  exact ⟨fun h => ⟨h.link, h.waiters, h.signals⟩, fun h => ⟨h.1, h.2.1, h.2.2⟩⟩

theorem prewait (h : Parts w lk p g) (hp : p + 1 < 2 ^ 14) :
    Parts (prewaitWord w) lk (p + 1) g := by
  rw [iff_toNat] at h ⊢
  rw [prewaitWord, BitVec.toNat_add, show kWaiterInc.toNat = 2 ^ 14 from rfl]
  have := w.isLt
  omega

theorem dec (h : Parts w lk (p + 1) g) : Parts (w - kWaiterInc) lk p g := by
  rw [iff_toNat] at h ⊢
  rw [BitVec.toNat_sub, show kWaiterInc.toNat = 2 ^ 14 from rfl]
  have := w.isLt
  omega

theorem decSignal (h : Parts w lk p (g + 1)) : Parts (w - kSignalInc) lk p g := by
  rw [iff_toNat] at h ⊢
  rw [BitVec.toNat_sub, show kSignalInc.toNat = 2 ^ 28 from rfl]
  have := w.isLt
  omega

theorem take (h : Parts w lk (p + 1) (g + 1)) : Parts (takeWord w) lk p g := h.dec.decSignal

theorem cancel (h : Parts w lk (p + 1) g) (hle : g ≤ p + 1) :
    Parts (cancelWord w) lk p (min g p) := by
  have hiff : waitersOf w = signalsOf w ↔ p + 1 = g := by
    rw [← BitVec.toNat_inj, h.waiters, h.signals]
  rw [cancelWord]
  split
  · rename_i he
    have hg := hiff.mp he
    subst hg
    rw [Nat.min_eq_right (Nat.le_succ p)]
    exact h.take
  · rename_i hne
    rw [hiff] at hne
    rw [Nat.min_eq_left (by omega)]
    exact h.dec

theorem signal (h : Parts w lk p g) (hg : g + 1 < 2 ^ 14) : Parts (signalWord w) lk p (g + 1) := by
  rw [iff_toNat] at h ⊢
  rw [signalWord, BitVec.toNat_add, show kSignalInc.toNat = 2 ^ 28 from rfl]
  have := w.isLt
  omega

/-- A link beside two counters. -/
theorem or {mid : Word64} (hm : Parts mid 0#64 p g) (hl : IsLink lk) :
    Parts (mid ||| lk) lk p g := by
  obtain ⟨h1, h2, h3⟩ := or_link hm.link hl
  exact ⟨h1, h2 ▸ hm.waiters, h3 ▸ hm.signals⟩

theorem and_waiterMask (h : Parts w lk p g) : Parts (w &&& kWaiterMask) 0#64 p 0 := by
  rw [iff_toNat] at h ⊢
  rw [toNat_and_waiterMask]
  have := w.isLt
  simp only [BitVec.toNat_ofNat]
  omega

theorem push {me : Word64} (h : Parts w lk (p + 1) g) (hme : IsLink me) :
    Parts (pushWord w me) me p 0 := h.and_waiterMask.dec.or hme

theorem pop {next : Word64} (h : Parts w lk p g) (hn : IsLink next) :
    Parts (popWord w next) next p g := by
  refine or ⟨?_, ?_, ?_⟩ hn
  · rw [linkOf, BitVec.and_assoc, show (kWaiterMask ||| kSignalMask) &&&
      (kStackMask ||| kEpochMask) = 0#64 from rfl]
    exact BitVec.and_zero
  · rw [waitersOf, BitVec.and_assoc, show (kWaiterMask ||| kSignalMask) &&& kWaiterMask =
      kWaiterMask from rfl]
    exact h.waiters
  · rw [signalsOf, BitVec.and_assoc, show (kWaiterMask ||| kSignalMask) &&& kSignalMask =
      kSignalMask from rfl]
    exact h.signals

theorem notifyAll (h : Parts w lk p g) : Parts (notifyAllWord w) kStackMask p p := by
  have hlt := toNat_waitersOf_lt w
  have hw := h.waiters
  have hsh : (waitersOf w <<< kSignalShift).toNat = 2 ^ 28 * p := by
    rw [BitVec.toNat_shiftLeft, Nat.shiftLeft_eq, hw, Nat.mod_eq_of_lt]
    · exact Nat.mul_comm _ _
    · rw [show kSignalShift = 28 from rfl]
      omega
  have hdis : w &&& kWaiterMask ||| waitersOf w <<< kSignalShift =
      waitersOf w <<< kSignalShift ||| w &&& kWaiterMask := BitVec.or_comm _ _
  have hm : (w &&& kWaiterMask).toNat = 2 ^ 14 * p := by
    rw [toNat_and_waiterMask, ← toNat_waitersOf, hw]
  refine or ?_ isLink_kStackMask
  rw [iff_toNat, hdis, BitVec.toNat_or, hsh, hm, ← Nat.two_pow_add_eq_or_of_lt (by omega)]
  have hq : (2 ^ 28 * p + 2 ^ 14 * p) / 2 ^ 28 = p := by
    rw [Nat.mul_add_div (by decide), Nat.div_eq_of_lt (by omega), Nat.add_zero]
  rw [hq]
  simp only [BitVec.toNat_ofNat]
  omega

/-- The assertions of `CheckState` hold of the word. -/
theorem check (h : Parts w lk p g) (hg : g ≤ p) (hp : p < 2 ^ 14 - 1) :
    checkState w false = true := by
  have h1 : signalsOf w ≤ waitersOf w := by
    rw [BitVec.le_def, h.waiters, h.signals]
    exact hg
  have h2 : waitersOf w < BitVec.ofNat 64 (2 ^ kCounterBits - 1) := by
    rw [BitVec.lt_def, h.waiters]
    exact hp
  rw [checkState, decide_eq_true h1, decide_eq_true h2]
  rfl

/-- With a thread in pre-wait state. -/
theorem check_waiter (h : Parts w lk p g) (hg : g ≤ p) (hp : p < 2 ^ 14 - 1) (hpos : 0 < p) :
    checkState w true = true := by
  have h3 : 0 < waitersOf w := by
    rw [BitVec.lt_def, h.waiters]
    exact hpos
  have hc := h.check hg hp
  rw [checkState] at hc ⊢
  rw [Bool.and_eq_true] at hc
  rw [hc.1, decide_eq_true h3]
  rfl

end Parts

end EventCount

end AsyncLib
