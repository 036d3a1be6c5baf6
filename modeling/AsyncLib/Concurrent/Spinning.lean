import AsyncLib.Concurrent.PointerState
import AsyncLib.Lib.Count
import AsyncLib.Lib.System

/-!
# The spinning state of `WorkQueueBase`

`async/concurrent/work_queue_base.h`. `mSpinningState` packs the number of threads in the steal loop
and the number of tasks that were submitted without a notification (32 bits each). `n` workers run
`StartSpinning` and `StopSpinning`, any number of threads run `IsNotifyParkedThreadRequired`, under
any interleaving of their loads and weak compare-exchanges.

* `SpinningState`, `decode`, `encode`: the two numbers and the word.
* `step`: one atomic step. `Log` counts the answers that the conservation law is about.
* `Inv`: the halves of the word, the threads and the answers agree.
* `spinning_correct`: what holds in every reachable state.
-/

namespace AsyncLib

namespace Spinning

open Sys Bitfield

/-- `kMaxSpinningThreads`: how many threads may be in the loop without a task to answer for. -/
def kMaxSpinningThreads : Word64 := 1

/-- The bits of `mNumSpinning`. -/
def kNumSpinningBits : Nat := 32

/-- `kNumSpinningMask = (1ull << kNumSpinningBits) - 1`. -/
def kNumSpinningMask : Word64 := BitVec.ofNat 64 (2 ^ kNumSpinningBits - 1)

/-- The bits of `mNumNoNotification`. -/
def kNumNoNotifyBits : Nat := 32

/-- Where `mNumNoNotification` begins. -/
def kNumNoNotifyShift : Nat := 32

/-- `kNumNoNotifyMask = ((1ull << kNumNoNotifyBits) - 1) << kNumNoNotifyShift`. -/
def kNumNoNotifyMask : Word64 := BitVec.ofNat 64 (2 ^ kNumNoNotifyBits - 1) <<< kNumNoNotifyShift

/-- `SpinningState`. -/
structure SpinningState where
  mNumSpinning : Word64
  mNumNoNotification : Word64
  deriving DecidableEq

/-- `SpinningState::Decode`. Its assertion is `WordOk.le`, which every word that is read meets. -/
def decode (state : Word64) : SpinningState :=
  ⟨state &&& kNumSpinningMask, (state &&& kNumNoNotifyMask) >>> kNumNoNotifyShift⟩

/-- `SpinningState::Encode`. -/
def SpinningState.encode (s : SpinningState) : Word64 :=
  (s.mNumNoNotification <<< kNumNoNotifyShift) ||| s.mNumSpinning

/-- The test of `StartSpinning` for enough threads in the loop. -/
def SpinningState.full (s : SpinningState) : Bool :=
  decide (kMaxSpinningThreads ≤ s.mNumSpinning - s.mNumNoNotification)

/-- What `StartSpinning` writes. -/
def SpinningState.started (s : SpinningState) : SpinningState :=
  { s with mNumSpinning := s.mNumSpinning + 1 }

/-- `has_no_notify_task` in `StopSpinning`. -/
def SpinningState.hasNoNotifyTask (s : SpinningState) : Bool := decide (0 < s.mNumNoNotification)

/-- What `StopSpinning` writes. -/
def SpinningState.stopped (s : SpinningState) : SpinningState :=
  ⟨s.mNumSpinning - 1,
    if s.hasNoNotifyTask then s.mNumNoNotification - 1 else s.mNumNoNotification⟩

/-- What `IsNotifyParkedThreadRequired` writes. -/
def SpinningState.skipped (s : SpinningState) : SpinningState :=
  { s with mNumNoNotification := s.mNumNoNotification + 1 }

/-! ## The two numbers -/

/-- The low half of the word. -/
def low (state : Word64) : Nat := (decode state).mNumSpinning.toNat

/-- The high half of the word. -/
def high (state : Word64) : Nat := (decode state).mNumNoNotification.toNat

theorem low_eq (state : Word64) : low state = state.toNat % 2 ^ 32 := by
  rw [low, decode, BitVec.toNat_and]
  exact Nat.and_two_pow_sub_one_eq_mod _ 32

theorem high_eq (state : Word64) : high state = state.toNat / 2 ^ 32 := by
  have h : high state = state.toNat / 2 ^ 32 % 2 ^ 32 :=
    toNat_field (show 32 + 32 ≤ 64 by decide) state
  have := state.isLt
  omega

/-- A word has the halves that were encoded, if both fit. -/
theorem low_high_encode {s : SpinningState} {a b : Nat} (ha : s.mNumSpinning.toNat = a)
    (hb : s.mNumNoNotification.toNat = b) (hla : a < 2 ^ 32) (hlb : b < 2 ^ 32) :
    low s.encode = a ∧ high s.encode = b := by
  have he : s.encode.toNat = 2 ^ 32 * b + a := by
    rw [SpinningState.encode, BitVec.toNat_or, BitVec.toNat_shiftLeft, Nat.shiftLeft_eq, ha, hb,
      show kNumNoNotifyShift = 32 from rfl, Nat.mod_eq_of_lt (by omega), Nat.mul_comm,
      ← Nat.two_pow_add_eq_or_of_lt hla]
  rw [low_eq, high_eq, he]
  omega

/-! ## The threads -/

/-- A worker. -/
abbrev Tid := Nat

/-- A thread that submits a task. -/
abbrev Nid := Nat

/-- Where a worker is. -/
inductive Pc where
  /-- Not in the steal loop. -/
  | idle
  /-- `spinning = mSpinningState.load()` in `StartSpinning`. -/
  | startLoad
  /-- The compare-exchange of `StartSpinning`. -/
  | startCas (spinning : Word64)
  /-- `StartSpinning` has returned true. -/
  | spinning
  /-- `spinning = mSpinningState.load()` in `StopSpinning`. -/
  | stopLoad
  /-- The compare-exchange of `StopSpinning`. -/
  | stopCas (spinning : Word64)
  deriving DecidableEq, Repr

/-- Where a thread in `IsNotifyParkedThreadRequired` is. -/
inductive NPc where
  | idle
  /-- `spinning = mSpinningState.load()`. -/
  | load
  /-- The compare-exchange. -/
  | cas (spinning : Word64)
  deriving DecidableEq, Repr

/-- The record of a run. -/
structure Log where
  /-- How often `IsNotifyParkedThreadRequired` returned false. -/
  skips : Nat
  /-- How often `StopSpinning` returned true. -/
  steals : Nat

/-- The word, the threads and the record. -/
structure St where
  mSpinningState : Word64
  pc : Tid → Pc
  npc : Nid → NPc
  log : Log

/-- Where `StartSpinning` goes on with the word `spinning`. -/
def startWith (spinning : Word64) : Pc :=
  if (decode spinning).full then .idle else .startCas spinning

/-- Where `IsNotifyParkedThreadRequired` goes on with the word `spinning`. -/
def notifyWith (spinning : Word64) : NPc :=
  let state := decode spinning
  if state.mNumNoNotification = state.mNumSpinning then .idle else .cas spinning

/-- Worker `t` moves to `pc`. -/
def St.goto (s : St) (t : Tid) (pc : Pc) : St := { s with pc := Function.update s.pc t pc }

/-- The submitting thread `m` moves to `pc`. -/
def St.ngoto (s : St) (m : Nid) (pc : NPc) : St := { s with npc := Function.update s.npc m pc }

/-- A write to `mSpinningState`. -/
def St.store (s : St) (w : Word64) : St := { s with mSpinningState := w }

/-- One step of worker `t`. -/
def move (s : St) (t : Tid) (weak : Bool) : Option St :=
  match s.pc t with
  | .idle | .spinning => none
  | .startLoad => some (s.goto t (startWith s.mSpinningState))
  | .startCas spinning =>
    if weak = false ∧ s.mSpinningState = spinning then
      some ((s.goto t .spinning).store (decode spinning).started.encode)
    else some (s.goto t (startWith s.mSpinningState))
  | .stopLoad => some (s.goto t (.stopCas s.mSpinningState))
  | .stopCas spinning =>
    if weak = false ∧ s.mSpinningState = spinning then
      some { (s.goto t .idle).store (decode spinning).stopped.encode with
        log := { s.log with
          steals := s.log.steals + (decode spinning).hasNoNotifyTask.toNat } }
    else some (s.goto t (.stopCas s.mSpinningState))

/-- One step of the submitting thread `m`. -/
def notifyMove (s : St) (m : Nid) (weak : Bool) : Option St :=
  match s.npc m with
  | .idle => none
  | .load => some (s.ngoto m (notifyWith s.mSpinningState))
  | .cas spinning =>
    if weak = false ∧ s.mSpinningState = spinning then
      some { (s.ngoto m .idle).store (decode spinning).skipped.encode with
        log := { s.log with skips := s.log.skips + 1 } }
    else some (s.ngoto m (notifyWith s.mSpinningState))

/-- Who moves. `enough` is the answer of `NumActiveThreads() > kMinActiveThreadsToStartSpinning`,
which reads the counter of blocked threads. -/
inductive Label where
  | start (t : Tid) (enough : Bool)
  | stop (t : Tid)
  | notify (m : Nid)
  | move (t : Tid) (weak : Bool)
  | notifyMove (m : Nid) (weak : Bool)
  deriving DecidableEq, Repr

/-- One atomic step of a pool of `n` workers. -/
def step (n : Nat) (s : St) : Label → Option St
  | .start t enough =>
    if t < n ∧ s.pc t = .idle then some (s.goto t (if enough then .idle else .startLoad)) else none
  | .stop t => if s.pc t = .spinning then some (s.goto t .stopLoad) else none
  | .notify m => if s.npc m = .idle then some (s.ngoto m .load) else none
  | .move t weak => move s t weak
  | .notifyMove m weak => notifyMove s m weak

/-- A new pool. -/
def start : St := ⟨0, fun _ => .idle, fun _ => .idle, ⟨0, 0⟩⟩

/-- The runs of `n` workers and any number of submitting threads. -/
def sys (n : Nat) : Sys St Label := ofFun start (step n)

/-- The worker is between `StartSpinning` and `StopSpinning`. -/
def Pc.inLoop : Pc → Bool
  | .spinning | .stopLoad | .stopCas _ => true
  | _ => false

/-! ## The invariant -/

/-- A word that was read from `mSpinningState`. -/
structure WordOk (n : Nat) (w : Word64) : Prop where
  le : high w ≤ low w
  near : low w ≤ high w + 1
  bound : low w ≤ n

/-- What is known of a worker. -/
def Pc.Known (n : Nat) : Pc → Prop
  | .startCas w => WordOk n w ∧ low w = high w ∧ low w < n
  | .stopCas w => WordOk n w ∧ 0 < low w
  | _ => True

/-- What is known of a submitting thread. -/
def NPc.Known (n : Nat) : NPc → Prop
  | .cas w => WordOk n w ∧ high w < low w
  | _ => True

/-- The halves of the word, the threads and the answers agree. -/
structure Inv (n : Nat) (s : St) : Prop where
  known : ∀ t, (s.pc t).Known n
  notify : ∀ m, (s.npc m).Known n
  range : ∀ t, s.pc t ≠ .idle → t < n
  count : low s.mSpinningState = count Pc.inLoop n s.pc
  le : high s.mSpinningState ≤ low s.mSpinningState
  near : low s.mSpinningState ≤ high s.mSpinningState + 1
  answers : s.log.skips = s.log.steals + high s.mSpinningState

variable {n : Nat} {s s' : St} {t : Tid} {m : Nid} {w : Word64}

theorem Inv.wordOk (h : Inv n s) : WordOk n s.mSpinningState :=
  ⟨h.le, h.near, by rw [h.count]; exact count_le⟩

/-- `StartSpinning` goes on only if every thread in the loop has a task to answer for. -/
theorem startWith_cases (hw : WordOk n w) :
    startWith w = .idle ∨ (startWith w = .startCas w ∧ low w = high w) := by
  rw [startWith]
  split
  · exact .inl rfl
  · rename_i hf
    refine .inr ⟨rfl, ?_⟩
    have h1 := hw.le
    have hlt : ¬kMaxSpinningThreads.toNat ≤
        ((decode w).mNumSpinning - (decode w).mNumNoNotification).toNat := fun hc =>
      hf (decide_eq_true hc)
    have hsub : ((decode w).mNumSpinning - (decode w).mNumNoNotification).toNat =
        low w - high w := BitVec.toNat_sub_of_le h1
    rw [hsub, show kMaxSpinningThreads.toNat = 1 from rfl] at hlt
    omega

theorem notifyWith_cases (hw : WordOk n w) :
    notifyWith w = .idle ∨ (notifyWith w = .cas w ∧ high w < low w) := by
  rw [notifyWith]
  split
  · exact .inl rfl
  · rename_i hne
    refine .inr ⟨rfl, Nat.lt_of_le_of_ne hw.le fun he => hne (BitVec.eq_of_toNat_eq he)⟩

/-- The halves after `StartSpinning`. -/
theorem started_halves (hlt : low w + 1 < 2 ^ 32) :
    low (decode w).started.encode = low w + 1 ∧ high (decode w).started.encode = high w := by
  have hb : high w < 2 ^ 32 := by
    have := w.isLt
    rw [high_eq]
    omega
  refine low_high_encode ?_ rfl hlt hb
  rw [SpinningState.started, BitVec.toNat_add]
  exact Nat.mod_eq_of_lt (Nat.lt_trans hlt (by decide))

/-- The halves after `StopSpinning`. -/
theorem stopped_halves (hpos : 0 < low w) :
    low (decode w).stopped.encode = low w - 1 ∧
      high (decode w).stopped.encode + (decode w).hasNoNotifyTask.toNat = high w := by
  have hb : high w < 2 ^ 32 := by
    have := w.isLt
    rw [high_eq]
    omega
  have hl : low w < 2 ^ 32 := by
    rw [low_eq]
    omega
  have h1 : (decode w).stopped.mNumSpinning.toNat = low w - 1 := by
    rw [SpinningState.stopped]
    exact BitVec.toNat_sub_of_le (y := 1) hpos
  by_cases hz : 0 < high w
  · have hn : (decode w).hasNoNotifyTask = true := decide_eq_true hz
    have h2 : (decode w).stopped.mNumNoNotification.toNat = high w - 1 := by
      rw [SpinningState.stopped, hn]
      exact BitVec.toNat_sub_of_le (y := 1) hz
    obtain ⟨e1, e2⟩ := low_high_encode h1 h2 (by omega) (by omega)
    refine ⟨e1, ?_⟩
    rw [e2, hn, Bool.toNat_true]
    omega
  · have hn : (decode w).hasNoNotifyTask = false := decide_eq_false hz
    have h2 : (decode w).stopped.mNumNoNotification.toNat = high w := by
      rw [SpinningState.stopped, hn]
      rfl
    obtain ⟨e1, e2⟩ := low_high_encode h1 h2 (by omega) hb
    refine ⟨e1, ?_⟩
    rw [e2, hn]
    rfl

/-- The halves after a skipped notification. -/
theorem skipped_halves (hlt : high w < low w) :
    low (decode w).skipped.encode = low w ∧ high (decode w).skipped.encode = high w + 1 := by
  have hl : low w < 2 ^ 32 := by
    rw [low_eq]
    omega
  refine low_high_encode rfl ?_ hl (by omega)
  rw [SpinningState.skipped, BitVec.toNat_add]
  exact Nat.mod_eq_of_lt (Nat.lt_of_lt_of_le (Nat.succ_lt_succ (Nat.lt_trans hlt hl)) (by decide))

/-- A step of worker `t` to `pc`. -/
theorem Inv.wait_step (h : Inv n s) (ht : t < n) (pc : Pc)
    (hpc : s'.pc = Function.update s.pc t pc) (hnpc : s'.npc = s.npc) (hk : pc.Known n)
    (hcount : low s'.mSpinningState + (s.pc t).inLoop.toNat =
      low s.mSpinningState + pc.inLoop.toNat)
    (hle : high s'.mSpinningState ≤ low s'.mSpinningState)
    (hnear : low s'.mSpinningState ≤ high s'.mSpinningState + 1)
    (hans : s'.log.skips = s'.log.steals + high s'.mSpinningState) : Inv n s' := by
  refine ⟨fun u => ?_, by rw [hnpc]; exact h.notify, fun u hu => ?_, ?_, hle, hnear, hans⟩
  · rw [hpc]
    by_cases hut : u = t
    · rw [hut, Function.update_self]
      exact hk
    · rw [Function.update_of_ne hut]
      exact h.known u
  · by_cases hut : u = t
    · exact hut ▸ ht
    · rw [hpc, Function.update_of_ne hut] at hu
      exact h.range u hu
  · have := count_update (p := Pc.inLoop) (f := s.pc) ht pc
    have := h.count
    rw [hpc]
    omega

/-- A step of worker `t` that leaves the word alone. -/
theorem Inv.quiet (h : Inv n s) (ht : t < n) {pc : Pc} (hk : pc.Known n)
    (hloop : pc.inLoop = (s.pc t).inLoop) : Inv n (s.goto t pc) :=
  h.wait_step ht pc rfl rfl hk (by rw [hloop]; rfl) h.le h.near h.answers

/-- `StartSpinning` has read the word. -/
theorem Inv.startRead (h : Inv n s) (ht : t < n) (hout : (s.pc t).inLoop = false) :
    Inv n (s.goto t (startWith s.mSpinningState)) := by
  have hlt : low s.mSpinningState < n := by
    rw [h.count]
    exact count_lt ht hout
  obtain hc | ⟨hc, he⟩ := startWith_cases h.wordOk <;> rw [hc]
  · exact h.quiet ht trivial hout.symm
  · exact h.quiet ht ⟨h.wordOk, he, hlt⟩ hout.symm

/-- `StopSpinning` has read the word. -/
theorem Inv.stopRead (h : Inv n s) (ht : t < n) (hin : (s.pc t).inLoop = true) :
    Inv n (s.goto t (.stopCas s.mSpinningState)) := by
  have hpos : 0 < low s.mSpinningState := by
    rw [h.count]
    exact count_pos ht hin
  exact h.quiet ht ⟨h.wordOk, hpos⟩ hin.symm

/-- A step of the submitting thread `m` that leaves the number of threads in the loop alone. -/
theorem Inv.notify_step (h : Inv n s) (pc : NPc) (hpc : s'.pc = s.pc)
    (hnpc : s'.npc = Function.update s.npc m pc) (hk : pc.Known n)
    (hlow : low s'.mSpinningState = low s.mSpinningState)
    (hle : high s'.mSpinningState ≤ low s'.mSpinningState)
    (hnear : low s'.mSpinningState ≤ high s'.mSpinningState + 1)
    (hans : s'.log.skips = s'.log.steals + high s'.mSpinningState) : Inv n s' := by
  refine ⟨by rw [hpc]; exact h.known, fun u => ?_, by rw [hpc]; exact h.range, ?_, hle, hnear, hans⟩
  · rw [hnpc]
    by_cases hu : u = m
    · rw [hu, Function.update_self]
      exact hk
    · rw [Function.update_of_ne hu]
      exact h.notify u
  · rw [hlow, hpc]
    exact h.count

/-- `IsNotifyParkedThreadRequired` has read the word. -/
theorem Inv.notifyRead (h : Inv n s) : Inv n (s.ngoto m (notifyWith s.mSpinningState)) := by
  obtain hc | ⟨hc, hlt⟩ := notifyWith_cases h.wordOk <;> rw [hc]
  · exact h.notify_step _ rfl rfl trivial rfl h.le h.near h.answers
  · exact h.notify_step _ rfl rfl ⟨h.wordOk, hlt⟩ rfl h.le h.near h.answers

theorem Inv.move {weak : Bool} (hn : n < 2 ^ 32) (h : Inv n s)
    (hm : Spinning.move s t weak = some s') : Inv n s' := by
  have ht : t < n := h.range t fun hi => by simp [Spinning.move, hi] at hm
  have hk := h.known t
  have hnear := h.near
  have hle := h.le
  have hans := h.answers
  cases hp : s.pc t <;> rw [hp] at hk <;> simp only [Spinning.move, hp] at hm
  case idle => cases hm
  case spinning => cases hm
  case startLoad =>
    obtain rfl := Option.some.inj hm
    exact h.startRead ht (by rw [hp]; rfl)
  case startCas w =>
    split at hm
    · rename_i hc
      obtain ⟨-, he⟩ := hc
      subst he
      obtain rfl := Option.some.inj hm
      obtain ⟨hok, heq, hlt⟩ := hk
      obtain ⟨e1, e2⟩ := started_halves (w := s.mSpinningState) (by omega)
      generalize (decode s.mSpinningState).started.encode = w' at e1 e2
      refine h.wait_step ht .spinning rfl rfl trivial ?_ ?_ ?_ ?_
      · rw [hp]
        exact e1
      · change high w' ≤ low w'
        omega
      · change low w' ≤ high w' + 1
        omega
      · change s.log.skips = s.log.steals + high w'
        omega
    · obtain rfl := Option.some.inj hm
      exact h.startRead ht (by rw [hp]; rfl)
  case stopLoad =>
    obtain rfl := Option.some.inj hm
    exact h.stopRead ht (by rw [hp]; rfl)
  case stopCas w =>
    split at hm
    · rename_i hc
      obtain ⟨-, he⟩ := hc
      subst he
      obtain rfl := Option.some.inj hm
      obtain ⟨hok, hpos⟩ := hk
      obtain ⟨e1, e2⟩ := stopped_halves hpos
      have hb : (decode s.mSpinningState).hasNoNotifyTask.toNat = min (high s.mSpinningState) 1 := by
        rw [SpinningState.hasNoNotifyTask]
        by_cases hz : 0 < high s.mSpinningState
        · have : decide (0 < (decode s.mSpinningState).mNumNoNotification) = true :=
            decide_eq_true hz
          rw [this, Bool.toNat_true]
          omega
        · have : decide (0 < (decode s.mSpinningState).mNumNoNotification) = false :=
            decide_eq_false hz
          rw [this, Bool.toNat_false]
          omega
      generalize (decode s.mSpinningState).stopped.encode = w' at e1 e2
      generalize (decode s.mSpinningState).hasNoNotifyTask.toNat = b at e2 hb
      refine h.wait_step ht .idle rfl rfl trivial ?_ ?_ ?_ ?_
      · rw [hp]
        change low w' + 1 = low s.mSpinningState + 0
        omega
      · change high w' ≤ low w'
        omega
      · change low w' ≤ high w' + 1
        omega
      · change s.log.skips = s.log.steals + b + high w'
        omega
    · obtain rfl := Option.some.inj hm
      exact h.stopRead ht (by rw [hp]; rfl)

theorem Inv.notifyMove {weak : Bool} (h : Inv n s) (hm : Spinning.notifyMove s m weak = some s') :
    Inv n s' := by
  have hk := h.notify m
  have hnear := h.near
  have hans := h.answers
  cases hp : s.npc m <;> rw [hp] at hk <;> simp only [Spinning.notifyMove, hp] at hm
  case idle => cases hm
  case load =>
    obtain rfl := Option.some.inj hm
    exact h.notifyRead
  case cas w =>
    split at hm
    · rename_i hc
      obtain ⟨-, he⟩ := hc
      subst he
      obtain rfl := Option.some.inj hm
      obtain ⟨hok, hlt⟩ := hk
      obtain ⟨e1, e2⟩ := skipped_halves hlt
      generalize (decode s.mSpinningState).skipped.encode = w' at e1 e2
      refine h.notify_step .idle rfl rfl trivial e1 ?_ ?_ ?_
      · change high w' ≤ low w'
        omega
      · change low w' ≤ high w' + 1
        omega
      · change s.log.skips + 1 = s.log.steals + high w'
        omega
    · obtain rfl := Option.some.inj hm
      exact h.notifyRead

theorem Inv.step {l : Label} (hn : n < 2 ^ 32) (h : Inv n s) (hs : step n s l = some s') :
    Inv n s' := by
  cases l with
  | start t enough =>
    simp only [Spinning.step, Option.ite_none_right_eq_some] at hs
    obtain ⟨⟨ht, hp⟩, hs⟩ := hs
    obtain rfl := Option.some.inj hs
    cases enough with
    | true => exact h.quiet ht trivial (by rw [hp]; rfl)
    | false => exact h.quiet ht trivial (by rw [hp]; rfl)
  | stop t =>
    simp only [Spinning.step, Option.ite_none_right_eq_some] at hs
    obtain ⟨hp, hs⟩ := hs
    obtain rfl := Option.some.inj hs
    exact h.quiet (h.range t (by rw [hp]; simp)) trivial (by rw [hp]; rfl)
  | notify m =>
    simp only [Spinning.step, Option.ite_none_right_eq_some] at hs
    obtain rfl := Option.some.inj hs.2
    exact h.notify_step _ rfl rfl trivial rfl h.le h.near h.answers
  | move t weak => exact h.move hn hs
  | notifyMove m weak => exact h.notifyMove hs

theorem inv_start (n : Nat) : Inv n start where
  known _ := trivial
  notify _ := trivial
  range t hc := absurd rfl hc
  count := by
    have hz : AsyncLib.count Pc.inLoop n start.pc = 0 :=
      List.countP_eq_zero.mpr fun _ _ => Bool.false_ne_true
    rw [hz]
    rfl
  le := by decide
  near := by decide
  answers := by decide

theorem reach_inv (hn : n < 2 ^ 32) (hs : (sys n).Reach Any s) : Inv n s :=
  hs.invariant (fun s h => by cases h; exact inv_start n) fun _ _ _ hi _ hs => hi.step hn hs

/-- The words that the compare-exchanges in progress are going to write: the halves change by one,
or not at all. -/
structure NoCarry (s : St) : Prop where
  started : ∀ t w, s.pc t = .startCas w →
    low (decode w).started.encode = low w + 1 ∧ high (decode w).started.encode = high w
  stopped : ∀ t w, s.pc t = .stopCas w → low (decode w).stopped.encode + 1 = low w ∧
    high (decode w).stopped.encode + (decode w).hasNoNotifyTask.toNat = high w
  skipped : ∀ m w, s.npc m = .cas w →
    low (decode w).skipped.encode = low w ∧ high (decode w).skipped.encode = high w + 1

theorem Inv.noCarry (hn : n < 2 ^ 32) (h : Inv n s) : NoCarry s where
  started t w hp := by
    have hk := h.known t
    rw [hp] at hk
    exact started_halves (Nat.lt_of_le_of_lt hk.2.2 hn)
  stopped t w hp := by
    have hk := h.known t
    rw [hp] at hk
    have hpos : 0 < low w := hk.2
    obtain ⟨e1, e2⟩ := stopped_halves hpos
    exact ⟨by omega, e2⟩
  skipped m w hp := by
    have hk := h.notify m
    rw [hp] at hk
    exact skipped_halves hk.2

/-- `n < 2^32` workers (`mNumThreads` has 32 bits) and any number of submitting threads: in every
reachable state the low half counts the workers between `StartSpinning` and `StopSpinning`, the high
half is at most the low half and at least that minus `kMaxSpinningThreads`, no write carries or
borrows between the halves, and every skipped notification is answered by a `StopSpinning` that
returned true or is still in the high half. -/
theorem spinning_correct (hn : n < 2 ^ 32) (hs : (sys n).Reach Any s) :
    low s.mSpinningState = count Pc.inLoop n s.pc ∧
    high s.mSpinningState ≤ low s.mSpinningState ∧
    low s.mSpinningState ≤ high s.mSpinningState + kMaxSpinningThreads.toNat ∧
    NoCarry s ∧
    s.log.skips = s.log.steals + high s.mSpinningState :=
  have h := reach_inv hn hs
  ⟨h.count, h.le, h.near, h.noCarry hn, h.answers⟩

/-- Worker 0 spins, a notification is skipped, worker 1 spins too, worker 0 stops. -/
def twoLabels : List Label :=
  [.start 0 false, .move 0 false, .move 0 true, .move 0 false, .notify 7, .notifyMove 7 false,
    .notifyMove 7 false, .start 1 false, .move 1 false, .move 1 false, .stop 0, .move 0 false,
    .move 0 false]

/-- The state after `twoLabels`. -/
def twoState : St := (runLabels (step 2) start twoLabels).getD start

theorem spinning_correct_two :
    twoState.log.skips = 1 ∧ twoState.pc 1 = .spinning ∧
    low twoState.mSpinningState = count Pc.inLoop 2 twoState.pc ∧
    high twoState.mSpinningState ≤ low twoState.mSpinningState ∧
    low twoState.mSpinningState ≤ high twoState.mSpinningState + kMaxSpinningThreads.toNat ∧
    NoCarry twoState ∧
    twoState.log.skips = twoState.log.steals + high twoState.mSpinningState :=
  ⟨by decide, by decide, spinning_correct (n := 2) (by decide)
    (reach_runLabels (fun _ => True) (.init rfl) twoLabels (fun _ _ => trivial) (by rfl))⟩

end Spinning

end AsyncLib
