import AsyncLib.Concurrent.BlockingWorkQueue

/-!
# The `std::thread` objects of the dynamic threads

`async/concurrent/blocking_work_queue.h`: an entry of `mDynamicThreads` owns the `std::thread` of a
dynamic thread. The entry is destroyed by the clean-up of `RunBlockingTask`, or with the list when
the queue is destroyed. The functions `Join` and `Detatch` of `StdThreadingEnvironment` are not
called on a dynamic thread.

* `Handle`: a `std::thread` object. `St`: the queue of `BlockingWorkQueue`, the handle of each
  started thread, and where the destructor is.
* `Released`: each handle that was destroyed had been joined or detached.
* `handles_released`: this holds in the runs in which no handle is destroyed, and in no others.
-/

namespace AsyncLib

namespace DynamicHandles

open Sys
open BlockingWorkQueue (DynamicThread)

/-! ## The code -/

/-- A `std::thread` object. -/
structure Handle where
  /-- `join` or `detach` was called. -/
  joined : Bool
  destroyed : Bool
  deriving DecidableEq, Repr

/-- Where `~BlockingWorkQueue` is. -/
inductive Destructor where
  | alive
  /-- In its call of `Quiesce`. -/
  | quiescing
  /-- Before the members are destroyed. -/
  | members
  | destroyed
  deriving DecidableEq, Repr

/-- The queue, the joined threads, and how far its destructor is. -/
structure St where
  queue : BlockingWorkQueue.St
  /-- The handle of each thread that was started. -/
  handles : List Handle
  destructor : Destructor

/-- The entries are destroyed. -/
def destroy (entries : List DynamicThread) (handles : List Handle) : List Handle :=
  handles.mapIdx fun t h =>
    if t ∈ entries.map DynamicThread.thread then { h with destroyed := true } else h

/-- The task goes to an idle thread. -/
def handsOver (q : BlockingWorkQueue.St) : Prop :=
  q.mIdleTaskQueue.length < q.mNumIdleDynamicThreads

instance (q : BlockingWorkQueue.St) : Decidable (handsOver q) := inferInstanceAs (Decidable (_ < _))

/-- The entries that the clean-up of `RunBlockingTask` removes. -/
def cleanedUp (q : BlockingWorkQueue.St) : List DynamicThread :=
  if handsOver q then [] else q.mDynamicThreads.filter fun thread => !thread.active

/-- The handle of the thread that `RunBlockingTask` starts. -/
def started (mMaxNumDynamicThreads : Nat) (q : BlockingWorkQueue.St) : List Handle :=
  if handsOver q then []
  else if q.mNumDynamicThreads < mMaxNumDynamicThreads then [⟨false, false⟩] else []

/-- A step of the queue, or one of its destructor. -/
inductive Label where
  /-- A step of a dynamic thread or of a client. -/
  | queue (l : BlockingWorkQueue.Label)
  /-- The destructor is called, and calls `Quiesce`. -/
  | destructor
  /-- The call of `Quiesce` returns. -/
  | quiesced
  /-- `mDynamicThreads` is destroyed. -/
  | members
  deriving DecidableEq, Repr

/-- A step; after the destructor nothing happens any more. -/
def step (mMaxNumDynamicThreads : Nat) (s : St) : Label → Option St
  | .queue l =>
    if s.destructor = .destroyed then none
    else (BlockingWorkQueue.step mMaxNumDynamicThreads s.queue l).map fun q =>
      { s with
        queue := q
        handles :=
          if l = .runBlockingTask then
            destroy (cleanedUp s.queue) s.handles ++ started mMaxNumDynamicThreads s.queue
          else s.handles }
  | .destructor =>
    if s.destructor = .alive then
      (BlockingWorkQueue.step mMaxNumDynamicThreads s.queue .quiesce).map fun q =>
        { s with queue := q, destructor := .quiescing }
    else none
  | .quiesced =>
    if s.destructor = .quiescing then
      (BlockingWorkQueue.step mMaxNumDynamicThreads s.queue .quiesced).map fun q =>
        { s with queue := q, destructor := .members }
    else none
  | .members =>
    if s.destructor = .members then
      some {
        queue := { s.queue with mDynamicThreads := [] }
        handles := destroy s.queue.mDynamicThreads s.handles
        destructor := .destroyed }
    else none

/-- A new queue. -/
def init : St := ⟨BlockingWorkQueue.init, [], .alive⟩

/-- All runs of a queue and its destructor. -/
def sys (mMaxNumDynamicThreads : Nat) : Sys St Label := Sys.ofFun init (step mMaxNumDynamicThreads)

/-! ## The invariant -/

/-- The threads that have an entry in `mDynamicThreads`. -/
def names (q : BlockingWorkQueue.St) : List Nat := q.mDynamicThreads.map DynamicThread.thread

/-- Every handle is destroyed or has an entry, and none was joined. -/
structure Inv (s : St) : Prop where
  length : s.handles.length = s.queue.threads.length
  names_lt : ∀ t ∈ names s.queue, t < s.handles.length
  /-- No code joins or detaches a dynamic thread. -/
  unjoined : ∀ h ∈ s.handles, h.joined = false
  /-- A handle without an entry was destroyed. -/
  owned : ∀ t h, s.handles[t]? = some h → h.destroyed = true ∨ t ∈ names s.queue
  ended : s.destructor = .destroyed → s.queue.mDynamicThreads = []

variable {max : Nat} {s s' : St} {l : Label} {q q' : BlockingWorkQueue.St}

theorem inv_init : Inv init := ⟨rfl, nofun, nofun, nofun, nofun⟩

theorem length_destroy (entries : List DynamicThread) (handles : List Handle) :
    (destroy entries handles).length = handles.length := List.length_mapIdx

theorem getElem?_destroy (entries : List DynamicThread) (handles : List Handle) (t : Nat) :
    (destroy entries handles)[t]? = handles[t]?.map fun h =>
      if t ∈ entries.map DynamicThread.thread then { h with destroyed := true } else h :=
  List.getElem?_mapIdx

theorem joined_destroy {entries : List DynamicThread} {handles : List Handle}
    (h : ∀ x ∈ handles, x.joined = false) : ∀ x ∈ destroy entries handles, x.joined = false := by
  intro x hx
  obtain ⟨t, ht⟩ := List.mem_iff_getElem?.mp hx
  rw [getElem?_destroy] at ht
  obtain ⟨y, hy, rfl⟩ := Option.map_eq_some_iff.mp ht
  have hjoined := h y (List.mem_of_getElem? hy)
  split
  · exact hjoined
  · exact hjoined

/-- A step that is no call of `RunBlockingTask` keeps the entries. -/
theorem names_step {l : BlockingWorkQueue.Label} (hl : l ≠ .runBlockingTask)
    (hs : BlockingWorkQueue.step max q l = some q') : names q' = names q := by
  have hexit : ∀ (w : BlockingWorkQueue.St) (u : Nat),
      names (BlockingWorkQueue.exitThread w u) = names w := by
    intro w u
    simp only [names, BlockingWorkQueue.exitThread, List.map_map]
    refine List.map_congr_left fun e _ => ?_
    simp only [Function.comp_apply]
    split <;> rfl
  have htake : ∀ (w : BlockingWorkQueue.St) (u : Nat),
      names (BlockingWorkQueue.takeTask w u) = names w := by
    intro w u
    unfold BlockingWorkQueue.takeTask
    split
    · rfl
    · exact hexit _ u
  cases l with
  | runBlockingTask => exact absurd rfl hl
  | call u | returnTask u =>
    simp only [BlockingWorkQueue.step] at hs
    split at hs
    · cases hs
      rfl
    · cases hs
  | waitNextTask u =>
    simp only [BlockingWorkQueue.step] at hs
    split at hs
    · split at hs
      · cases hs
        exact htake _ u
      · cases hs
        rfl
    · cases hs
  | wake u timeout =>
    simp only [BlockingWorkQueue.step] at hs
    split at hs
    · split at hs
      · cases hs
        exact htake _ u
      · cases hs
        rfl
    · cases hs
  | quiesce =>
    cases hs
    rfl
  | quiesced =>
    obtain ⟨-, hs⟩ := Option.ite_none_right_eq_some.mp hs
    cases hs
    rfl

/-- The active entries, and the others. -/
def actives (q : BlockingWorkQueue.St) : List DynamicThread :=
  q.mDynamicThreads.filter fun thread => thread.active

/-- The entries of the threads that have ended. -/
def inactives (q : BlockingWorkQueue.St) : List DynamicThread :=
  q.mDynamicThreads.filter fun thread => !thread.active

theorem mem_names {t : Nat} (h : t ∈ names q) :
    t ∈ (actives q).map DynamicThread.thread ∨ t ∈ (inactives q).map DynamicThread.thread := by
  obtain ⟨e, he, rfl⟩ := List.mem_map.mp h
  cases ha : e.active with
  | true => exact .inl (List.mem_map_of_mem (List.mem_filter.mpr ⟨he, ha⟩))
  | false => exact .inr (List.mem_map_of_mem (List.mem_filter.mpr ⟨he, by rw [ha]; rfl⟩))

theorem actives_names {t : Nat} (h : t ∈ (actives q).map DynamicThread.thread) : t ∈ names q := by
  obtain ⟨e, he, rfl⟩ := List.mem_map.mp h
  exact List.mem_map_of_mem (List.mem_filter.mp he).1

/-- `RunBlockingTask` hands the task over, or cleans up, and starts a thread or gives the task
back. -/
theorem run_cases (hs : BlockingWorkQueue.step max q .runBlockingTask = some q') :
    cleanedUp q = [] ∧ started max q = [] ∧ q'.threads = q.threads ∧
        q'.mDynamicThreads = q.mDynamicThreads ∨
      cleanedUp q = inactives q ∧ started max q = [⟨false, false⟩] ∧
        q'.threads.length = q.threads.length + 1 ∧
        q'.mDynamicThreads = actives q ++ [⟨q.threads.length, true⟩] ∨
      cleanedUp q = inactives q ∧ started max q = [] ∧ q'.threads = q.threads ∧
        q'.mDynamicThreads = actives q := by
  have hth : q'.threads = (BlockingWorkQueue.runBlockingTask max q q.submitted).1.threads := by
    cases hs
    rfl
  have hen : q'.mDynamicThreads =
      (BlockingWorkQueue.runBlockingTask max q q.submitted).1.mDynamicThreads := by
    cases hs
    rfl
  rw [hth, hen]
  unfold cleanedUp started
  by_cases hover : handsOver q
  · have hrun : BlockingWorkQueue.runBlockingTask max q q.submitted =
        ({ q with mIdleTaskQueue := q.mIdleTaskQueue ++ [q.submitted] }, none) := if_pos hover
    rw [if_pos hover, if_pos hover, hrun]
    exact .inl ⟨rfl, rfl, rfl, rfl⟩
  · have hrun : BlockingWorkQueue.runBlockingTask max q q.submitted =
        if q.mNumDynamicThreads < max then
          ({ q with
            mDynamicThreads := actives q ++ [⟨q.threads.length, true⟩]
            threads := q.threads ++ [.call q.submitted]
            mNumDynamicThreads := q.mNumDynamicThreads + 1 }, none)
        else ({ q with mDynamicThreads := actives q }, some q.submitted) := if_neg hover
    rw [if_neg hover, if_neg hover, hrun]
    by_cases hmax : q.mNumDynamicThreads < max
    · rw [if_pos hmax, if_pos hmax]
      exact .inr (.inl ⟨rfl, rfl, by simp, rfl⟩)
    · rw [if_neg hmax, if_neg hmax]
      exact .inr (.inr ⟨rfl, rfl, rfl, rfl⟩)

/-- A handle whose entry is destroyed is destroyed; the other handles stay. -/
theorem Inv.destroy (h : Inv s) {entries : List DynamicThread} {kept : List Nat}
    (hkept : ∀ t ∈ names s.queue, t ∈ kept ∨ t ∈ entries.map DynamicThread.thread) {t : Nat}
    {x : Handle} (hx : (destroy entries s.handles)[t]? = some x) : x.destroyed = true ∨ t ∈ kept := by
  rw [getElem?_destroy] at hx
  obtain ⟨y, hy, rfl⟩ := Option.map_eq_some_iff.mp hx
  by_cases ht : t ∈ entries.map DynamicThread.thread
  · rw [if_pos ht]
    exact .inl rfl
  · rw [if_neg ht]
    rcases h.owned t y hy with hd | hn
    · exact .inl hd
    · exact .inr ((hkept t hn).resolve_right ht)

theorem Inv.run (h : Inv s) (hd : s.destructor ≠ .destroyed)
    (hs : BlockingWorkQueue.step max s.queue .runBlockingTask = some q) :
    Inv { s with
      queue := q
      handles := DynamicHandles.destroy (cleanedUp s.queue) s.handles ++ started max s.queue } := by
  have hlen := h.length
  have hlen' := length_destroy (cleanedUp s.queue) s.handles
  have hjoined : ∀ x ∈ DynamicHandles.destroy (cleanedUp s.queue) s.handles, x.joined = false :=
    joined_destroy h.unjoined
  have hend : s.destructor = .destroyed → q.mDynamicThreads = [] := fun he => absurd he hd
  rcases run_cases hs with ⟨hc, hst, hth, hen⟩ | ⟨hc, hst, hth, hen⟩ | ⟨hc, hst, hth, hen⟩
  · have hsame : names q = names s.queue := by rw [names, hen]; rfl
    rw [hst, List.append_nil]
    refine ⟨?_, fun t ht => ?_, hjoined, fun t x hx => ?_, hend⟩
    · rw [hlen', hlen, hth]
    · show t < (DynamicHandles.destroy (cleanedUp s.queue) s.handles).length
      rw [hlen']
      exact h.names_lt t (hsame ▸ ht)
    · exact h.destroy (fun t ht => .inl (hsame.symm ▸ ht)) hx
  · rw [hst]
    have hnames :
        names q = (actives s.queue).map DynamicThread.thread ++ [s.queue.threads.length] := by
      rw [names, hen, List.map_append]
      rfl
    refine ⟨?_, fun t ht => ?_, fun x hx => ?_, fun t x hx => ?_, hend⟩
    · rw [List.length_append, hlen', hlen, hth]
      rfl
    · show t < (DynamicHandles.destroy (cleanedUp s.queue) s.handles ++ [_]).length
      rw [List.length_append, hlen', List.length_singleton]
      have ht : t ∈ names q := ht
      rw [hnames] at ht
      rcases List.mem_append.mp ht with ht | ht
      · exact Nat.lt_succ_of_lt (h.names_lt t (actives_names ht))
      · rw [List.mem_singleton.mp ht, hlen]
        exact Nat.lt_succ_self _
    · rcases List.mem_append.mp hx with hx | hx
      · exact hjoined x hx
      · rw [List.mem_singleton.mp hx]
    · show x.destroyed = true ∨ t ∈ names q
      rw [hnames]
      by_cases ht : t < s.handles.length
      · rw [List.getElem?_append_left (by rw [hlen']; exact ht)] at hx
        have hkept : ∀ u ∈ names s.queue,
            u ∈ (actives s.queue).map DynamicThread.thread ++ [s.queue.threads.length] ∨
              u ∈ (cleanedUp s.queue).map DynamicThread.thread := fun u hu => by
          rw [hc]
          exact (mem_names hu).imp_left fun hu => List.mem_append_left _ hu
        exact h.destroy hkept hx
      · obtain ⟨hlt, -⟩ := List.getElem?_eq_some_iff.mp hx
        rw [List.length_append, hlen', List.length_singleton] at hlt
        have heq : t = s.queue.threads.length := by omega
        exact .inr (List.mem_append_right _ (heq ▸ List.mem_singleton_self _))
  · have hnames : names q = (actives s.queue).map DynamicThread.thread := by
      rw [names, hen]
    rw [hst, List.append_nil]
    refine ⟨?_, fun t ht => ?_, hjoined, fun t x hx => ?_, hend⟩
    · rw [hlen', hlen, hth]
    · show t < (DynamicHandles.destroy (cleanedUp s.queue) s.handles).length
      rw [hlen']
      have ht : t ∈ names q := ht
      exact h.names_lt t (actives_names (hnames ▸ ht))
    · show x.destroyed = true ∨ t ∈ names q
      rw [hnames]
      exact h.destroy (fun u hu => by rw [hc]; exact mem_names hu) hx

/-- A step of the queue that does not touch the handles. -/
theorem Inv.other (h : Inv s) {l : BlockingWorkQueue.Label} (hl : l ≠ .runBlockingTask)
    (hs : BlockingWorkQueue.step max s.queue l = some q) {destructor : Destructor}
    (hd : destructor ≠ .destroyed) : Inv { s with queue := q, destructor := destructor } := by
  have hnames := names_step hl hs
  obtain ⟨hlen, -⟩ := BlockingWorkQueue.length_step hl hs
  exact ⟨h.length.trans hlen.symm, fun t ht => h.names_lt t (hnames ▸ ht), h.unjoined,
    fun t x hx => (h.owned t x hx).imp_right fun hn => hnames.symm ▸ hn, fun he => absurd he hd⟩

theorem Inv.step (h : Inv s) (hs : step max s l = some s') : Inv s' := by
  cases l with
  | queue l =>
    simp only [DynamicHandles.step] at hs
    split at hs
    · cases hs
    · rename_i hd
      obtain ⟨q, hq, rfl⟩ := Option.map_eq_some_iff.mp hs
      by_cases hl : l = .runBlockingTask
      · subst hl
        exact h.run hd hq
      · rw [if_neg hl]
        exact h.other hl hq hd
  | destructor =>
    obtain ⟨-, hs⟩ := Option.ite_none_right_eq_some.mp hs
    obtain ⟨q, hq, rfl⟩ := Option.map_eq_some_iff.mp hs
    exact h.other (l := .quiesce) nofun hq nofun
  | quiesced =>
    obtain ⟨-, hs⟩ := Option.ite_none_right_eq_some.mp hs
    obtain ⟨q, hq, rfl⟩ := Option.map_eq_some_iff.mp hs
    exact h.other (l := .quiesced) nofun hq nofun
  | members =>
    obtain ⟨-, hs⟩ := Option.ite_none_right_eq_some.mp hs
    cases hs
    refine ⟨(length_destroy _ _).trans h.length, nofun, joined_destroy h.unjoined, fun t x hx => ?_,
      fun _ => rfl⟩
    have hkept : ∀ t ∈ names s.queue, t ∈ ([] : List Nat) ∨ t ∈ names s.queue :=
      fun t ht => .inr ht
    exact h.destroy hkept hx

theorem inv_reach (hs : (sys max).Reach Any s) : Inv s := by
  refine hs.invariant ?_ ?_
  · rintro s rfl
    exact inv_init
  · intro s l s' h _ hn
    exact h.step hn

/-! ## Handles that are destroyed -/

/-- Every handle that was destroyed had been joined or detached. -/
def Released (s : St) : Prop := ∀ h ∈ s.handles, h.destroyed = true → h.joined = true

/-- The step destroys no handle: the clean-up finds no thread that has exited, and the list is empty
when it is destroyed. -/
def Keeps (s : St) : Label → Prop
  | .queue .runBlockingTask => cleanedUp s.queue = []
  | .members => s.queue.mDynamicThreads = []
  | _ => True

theorem destroy_nil (handles : List Handle) : destroy [] handles = handles := by
  refine List.ext_getElem? fun t => ?_
  rw [getElem?_destroy]
  cases handles[t]? <;> rfl

/-- A step that keeps the handles. -/
theorem keeps_step (h : ∀ x ∈ s.handles, x.destroyed = false) (hk : Keeps s l)
    (hs : step max s l = some s') : ∀ x ∈ s'.handles, x.destroyed = false := by
  cases l with
  | queue l =>
    simp only [step] at hs
    split at hs
    · cases hs
    · obtain ⟨q, hq, rfl⟩ := Option.map_eq_some_iff.mp hs
      by_cases hl : l = .runBlockingTask
      · subst hl
        have hclean : cleanedUp s.queue = [] := hk
        show ∀ x ∈ destroy (cleanedUp s.queue) s.handles ++ started max s.queue, _
        rw [hclean, destroy_nil]
        intro x hx
        rcases List.mem_append.mp hx with hx | hx
        · exact h x hx
        · unfold started at hx
          split at hx
          · cases hx
          · split at hx
            · rw [List.mem_singleton.mp hx]
            · cases hx
      · rw [if_neg hl]
        exact h
  | destructor =>
    obtain ⟨-, hs⟩ := Option.ite_none_right_eq_some.mp hs
    obtain ⟨q, hq, rfl⟩ := Option.map_eq_some_iff.mp hs
    exact h
  | quiesced =>
    obtain ⟨-, hs⟩ := Option.ite_none_right_eq_some.mp hs
    obtain ⟨q, hq, rfl⟩ := Option.map_eq_some_iff.mp hs
    exact h
  | members =>
    obtain ⟨-, hs⟩ := Option.ite_none_right_eq_some.mp hs
    cases hs
    have hempty : s.queue.mDynamicThreads = [] := hk
    show ∀ x ∈ destroy s.queue.mDynamicThreads s.handles, _
    rw [hempty, destroy_nil]
    exact h

/-- A handle that is destroyed is a joinable one. -/
theorem Inv.not_released (h : Inv s) {entries : List DynamicThread} (hsub : ∀ e ∈ entries,
    e ∈ s.queue.mDynamicThreads) (hne : entries ≠ []) (new : List Handle) :
    ∃ x ∈ DynamicHandles.destroy entries s.handles ++ new, x.destroyed = true ∧ x.joined = false := by
  obtain ⟨e, he⟩ := List.exists_mem_of_ne_nil entries hne
  have hlt := h.names_lt e.thread (List.mem_map_of_mem (hsub e he))
  have hx : (DynamicHandles.destroy entries s.handles)[e.thread]? =
      some { s.handles[e.thread] with destroyed := true } := by
    rw [getElem?_destroy, List.getElem?_eq_getElem hlt, Option.map_some,
      if_pos (List.mem_map_of_mem he)]
  have hjoined : s.handles[e.thread].joined = false := h.unjoined _ (List.getElem_mem hlt)
  exact ⟨_, List.mem_append_left _ (List.mem_of_getElem? hx), rfl, hjoined⟩

/-- A step that destroys a handle destroys a joinable one. -/
theorem not_keeps_step (h : Inv s) (hk : ¬ Keeps s l) (hs : step max s l = some s') :
    ¬ Released s' := by
  have habsurd : (∃ x ∈ s'.handles, x.destroyed = true ∧ x.joined = false) → ¬ Released s' := by
    rintro ⟨x, hx, hd, hj⟩ hr
    exact Bool.false_ne_true (hj.symm.trans (hr x hx hd))
  cases l with
  | queue l =>
    cases l with
    | runBlockingTask =>
      simp only [step] at hs
      split at hs
      · cases hs
      · obtain ⟨q, hq, rfl⟩ := Option.map_eq_some_iff.mp hs
        refine habsurd (h.not_released (fun e he => ?_) hk (started max s.queue))
        unfold cleanedUp at he
        split at he
        · cases he
        · exact (List.mem_filter.mp he).1
    | _ => exact absurd trivial hk
  | members =>
    obtain ⟨-, hs⟩ := Option.ite_none_right_eq_some.mp hs
    cases hs
    have hx := h.not_released (fun e he => he) hk []
    rw [List.append_nil] at hx
    exact habsurd hx
  | _ => exact absurd trivial hk

/-- After the destructor every handle is destroyed. -/
theorem Inv.ended_iff (h : Inv s) (hd : s.destructor = .destroyed) :
    Released s ↔ s.queue.threads = [] := by
  have hlen := h.length
  constructor
  · intro hr
    refine List.length_eq_zero_iff.mp (hlen ▸ List.length_eq_zero_iff.mpr ?_)
    refine List.eq_nil_iff_forall_not_mem.mpr fun x hx => ?_
    obtain ⟨t, ht⟩ := List.mem_iff_getElem?.mp hx
    have hj := h.unjoined x hx
    rcases h.owned t x ht with hx' | hn
    · exact Bool.false_ne_true (hj.symm.trans (hr x hx hx'))
    · rw [names, h.ended hd] at hn
      cases hn
  · intro hnil x hx
    have hempty : s.handles = [] := List.length_eq_zero_iff.mp (by rw [hlen, hnil]; rfl)
    rw [hempty] at hx
    cases hx

/-- No handle is destroyed that was not joined or detached in the runs whose steps destroy no
handle; a step that does destroys a joinable one. So the queue is destroyed properly if it never
started a dynamic thread, and not otherwise. -/
theorem handles_released (mMaxNumDynamicThreads : Nat) :
    (∀ s, (sys mMaxNumDynamicThreads).Reach Keeps s → Released s) ∧
      (∀ s l s', (sys mMaxNumDynamicThreads).Reach Any s → (sys mMaxNumDynamicThreads).next s l s' →
        ¬ Keeps s l → ¬ Released s') ∧
      ∀ s, (sys mMaxNumDynamicThreads).Reach Any s → s.destructor = .destroyed →
        (Released s ↔ s.queue.threads = []) := by
  refine ⟨fun s hs => ?_, fun s l s' hs hn hk => not_keeps_step (inv_reach hs) hk hn,
    fun s hs hd => (inv_reach hs).ended_iff hd⟩
  have hkept : ∀ x ∈ s.handles, x.destroyed = false := by
    refine hs.invariant (I := fun s => ∀ x ∈ s.handles, x.destroyed = false) ?_ ?_
    · rintro s rfl x hx
      cases hx
    · intro s l s' h hk hn
      exact keeps_step h hk hn
  intro x hx hd
  exact absurd (hd.symm.trans (hkept x hx)) nofun

/-- A task runs in a dynamic thread, the thread exits at the end of its idle time, and the next call
cleans up. -/
def cleanUp : List Label :=
  [.queue .runBlockingTask, .queue (.call 0), .queue (.returnTask 0), .queue (.waitNextTask 0),
    .queue (.wake 0 true), .queue .runBlockingTask]

/-- The clean-up destroys a joinable thread. -/
theorem not_handles_released : ¬ ∀ s, (sys 4).Reach Any s → Released s := by
  intro h
  have hr : ∀ s, runLabels (step 4) init cleanUp = some s → Released s := fun s hs =>
    h s (reach_runLabels (fun _ => True) (.init rfl) cleanUp (fun _ _ => trivial) hs)
  have hreleased := hr _ rfl ⟨false, true⟩ (by decide) rfl
  exact Bool.false_ne_true hreleased

/-- A queue that starts a dynamic thread and is not destroyed, and one that is destroyed unused. -/
theorem handles_released_unused :
    (∃ s, s.handles = [⟨false, false⟩] ∧ Released s) ∧
      ∃ s, s.destructor = .destroyed ∧ Released s := by
  obtain ⟨hkeeps, -, hended⟩ := handles_released 4
  have h0 : (sys 4).Reach Keeps init := .init rfl
  have h1 := h0.step (l := Label.queue .runBlockingTask) rfl rfl
  have hr : ∀ s, runLabels (step 4) init [.destructor, .quiesced, .members] = some s →
      s.destructor = .destroyed → (Released s ↔ s.queue.threads = []) := fun s hs =>
    hended s (reach_runLabels (fun _ => True) (.init rfl) _ (fun _ _ => trivial) hs)
  exact ⟨⟨_, rfl, hkeeps _ h1⟩, ⟨_, rfl, (hr _ rfl rfl).mpr rfl⟩⟩

end DynamicHandles

end AsyncLib
