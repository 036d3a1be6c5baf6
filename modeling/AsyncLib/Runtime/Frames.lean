import AsyncLib.Runtime.ExecutorSteps

/-!
# Frames and their code

`Runtime/ExecutorSteps.lean` forgets which frame executes an operation. Here the frames are kept.

* `Moves`: the steps of the system, one constructor for each form that a step can take.
  `step_moves`: there are no others.
* `Moves.forall_frames`: a property of frames that the executor's own pieces of code have and that
  each operation keeps holds of all frames.
* `Frame.Drains`: a frame that has ready kernels, or may get some, still has the loop of
  `ProcessReadyKernels` before it.
-/

namespace AsyncLib

namespace GraphExecutor

open AsyncValue Sys Agenda

variable {F V E : Type} {g : AsyncGraph F} {start : Nat}

/-! ## The forms of a step -/

/-- What a step does to the frames. -/
inductive Moves (g : AsyncGraph F) (start : Nat) (s : St V E) : Label V E → St V E → Prop
  /-- The top frame is finished. -/
  | pop {t : Nat} {c : Choice V E} {stack : List Frame} (ht : s.threads[t]? = some (⟨[], []⟩ :: stack)) :
    Moves g start s (.run t c) { s with threads := s.threads.set t stack }
  /-- The loop of `ProcessReadyKernels` ends. -/
  | ends {t : Nat} {c : Choice V E} {rest : List Op} {stack : List Frame}
      (ht : s.threads[t]? = some (⟨[], .processReadyKernels :: rest⟩ :: stack)) :
    Moves g start s (.run t c) { s with threads := s.threads.set t (⟨[], rest⟩ :: stack) }
  /-- A round of it: the first ready kernel is processed here, the others go to the queue. -/
  | round {t : Nat} {c : Choice V E} {k : Nat} {ks : List Nat} {rest : List Op} {stack : List Frame}
      (ht : s.threads[t]? = some (⟨k :: ks, .processReadyKernels :: rest⟩ :: stack)) :
    Moves g start s (.run t c)
      { s with
        threads := s.threads.set t
          (⟨[], ks.map .enqueueWork ++ .processReadyKernel k :: .processReadyKernels :: rest⟩ ::
            stack) }
  | exec {t : Nat} {c : Choice V E} {ready : List Nat} {op : Op} {rest : List Op}
      {stack : List Frame} {sh' : Shared V E} {e : Effect}
      (ht : s.threads[t]? = some (⟨ready, op :: rest⟩ :: stack))
      (he : exec g start s.sh c op = some (sh', e)) :
    Moves g start s (.run t c)
      ⟨sh', s.queue ++ e.queued,
        s.threads.set t (e.frames ++ ⟨ready ++ e.ready, e.code ++ rest⟩ :: stack)⟩
  | pick {k : Nat} (hk : k ∈ s.queue) :
    Moves g start s (.pick k)
      { s with queue := s.queue.erase k, threads := s.threads ++ [[taskFrame k]] }
  | resolve {a : Addr} {form : Form} {ty : Nat} {sh' : Shared V E} {ws : List (Waiter Closure)}
      (hp : s.sh.promised a = true) (hr : resolve s.sh a form ty = some (sh', ws)) :
    Moves g start s (.resolve a form ty)
      { s with
        sh := sh', threads := s.threads ++ [waiterFrames start ws ++ [⟨[], [.dropRef a]⟩]] }
  | dropResult {r : Nat} {a : Addr} (hr : s.sh.results r = .held a)
      (ht : s.threads[0]? = some []) :
    Moves g start s (.dropResult r)
      { s with
        sh := { s.sh with
          heap := s.sh.heap.dropRef a 1, results := Function.update s.sh.results r .dropped } }

section Moves

variable {s s' : St V E} {l : Label V E}

theorem runFrame_moves {t : Nat} {c : Choice V E} {f : Frame} {stack : List Frame}
    (ht : s.threads[t]? = some (f :: stack)) (hs : runFrame g start s t c f stack = some s') :
    Moves g start s (.run t c) s' := by
  obtain ⟨ready, code⟩ := f
  cases code with
  | nil =>
    obtain ⟨rfl, hs⟩ := Option.ite_none_right_eq_some.mp hs
    cases hs
    exact .pop ht
  | cons op rest =>
    simp only [runFrame] at hs
    split at hs
    · cases hs
      exact .ends ht
    · cases hs
      exact .round ht
    · obtain ⟨⟨sh', e⟩, he, hs⟩ := Option.map_eq_some_iff.mp hs
      cases hs
      exact .exec ht he

/-- Every step has one of these forms. -/
theorem step_moves (hs : step g start s l = some s') : Moves g start s l s' := by
  cases l with
  | run t c =>
    simp only [step] at hs
    split at hs
    · rename_i f stack ht
      exact runFrame_moves ht hs
    · cases hs
  | pick k =>
    obtain ⟨hk, hs⟩ := Option.ite_none_right_eq_some.mp hs
    cases hs
    exact .pick hk
  | resolve a form ty =>
    obtain ⟨hp, hs⟩ := Option.ite_none_right_eq_some.mp hs
    obtain ⟨⟨sh', ws⟩, hr, hs⟩ := Option.map_eq_some_iff.mp hs
    cases hs
    exact .resolve hp hr
  | dropResult r =>
    simp only [step] at hs
    split at hs
    · rename_i a ha
      obtain ⟨ht, hs⟩ := Option.ite_none_right_eq_some.mp hs
      cases hs
      exact .dropResult ha ht
    · cases hs

/-- All frames of all threads. -/
def AllFrames (P : Frame → Prop) (s : St V E) : Prop := ∀ st ∈ s.threads, ∀ f ∈ st, P f

/-- A property of frames that the executor's own pieces of code have and that each operation keeps. -/
structure Stable (g : AsyncGraph F) (start : Nat) (V E : Type) (P : Frame → Prop) : Prop where
  ends : ∀ {rest}, P ⟨[], .processReadyKernels :: rest⟩ → P ⟨[], rest⟩
  round : ∀ {k ks rest}, P ⟨k :: ks, .processReadyKernels :: rest⟩ →
    P ⟨[], ks.map .enqueueWork ++ .processReadyKernel k :: .processReadyKernels :: rest⟩
  exec : ∀ {sh sh' : Shared V E} {c ready op rest e}, exec g start sh c op = some (sh', e) →
    P ⟨ready, op :: rest⟩ → P ⟨ready ++ e.ready, e.code ++ rest⟩
  task : ∀ k, P (taskFrame k)
  waiter : ∀ w, P ⟨[], waiterCode start w⟩
  drop : ∀ a, P ⟨[], [.dropRef a]⟩

theorem AllFrames.set {P : Frame → Prop} (h : AllFrames P s) {t : Nat} {st : List Frame}
    {sh : Shared V E} {queue : List Nat} (hst : ∀ f ∈ st, P f) :
    AllFrames P (⟨sh, queue, s.threads.set t st⟩ : St V E) := by
  intro x hx f hf
  rcases List.mem_or_eq_of_mem_set hx with hx | rfl
  · exact h x hx f hf
  · exact hst f hf

theorem AllFrames.append {P : Frame → Prop} (h : AllFrames P s) {st : List Frame}
    {sh : Shared V E} {queue : List Nat} (hst : ∀ f ∈ st, P f) :
    AllFrames P (⟨sh, queue, s.threads ++ [st]⟩ : St V E) := by
  intro x hx f hf
  rcases List.mem_append.mp hx with hx | hx
  · exact h x hx f hf
  · cases List.mem_singleton.mp hx
    exact hst f hf

theorem Stable.waiterFrames {P : Frame → Prop} (hP : Stable g start V E P)
    (ws : List (Waiter Closure)) : ∀ f ∈ waiterFrames start ws, P f := by
  intro f hf
  obtain ⟨w, -, rfl⟩ := List.mem_map.mp hf
  exact hP.waiter w

/-- The frames that an operation starts run closures or a task. -/
theorem exec_frames {sh sh' : Shared V E} {c : Choice V E} {op : Op} {e : Effect}
    (he : exec g start sh c op = some (sh', e)) {f : Frame} (hf : f ∈ e.frames) :
    (∃ w, f = ⟨[], waiterCode start w⟩) ∨ ∃ k, f = taskFrame k := by
  have hws : ∀ ws, f ∈ waiterFrames start ws → ∃ w, f = ⟨[], waiterCode start w⟩ := by
    intro ws h
    obtain ⟨w, -, rfl⟩ := List.mem_map.mp h
    exact ⟨w, rfl⟩
  cases op with
  | pseudoAndThen j a | andThen k j v | forwardExisting k j i v | forwardTo i v =>
    cases he
    exact .inl (hws _ hf)
  | enqueueWork k =>
    simp only [exec] at he
    split at he
    · cases he
      exact .inr ⟨k, List.mem_singleton.mp hf⟩
    · cases he
      cases hf
  | pseudoKernel j =>
    simp only [exec] at he
    split at he
    · cases he
      cases hf
    · split at he
      · cases he
        cases hf
      · split at he
        · cases he
        · split at he
          · cases he
            cases hf
          · split at he <;> cases he <;> cases hf
  | addArgs k todo args err => cases todo <;> cases he <;> cases hf
  | installIndirect r ind cont =>
    simp only [exec] at he
    split at he <;> cases he <;> cases hf
  | callKernel k args err =>
    cases err with
    | some e' =>
      cases he
      cases hf
    | none =>
      obtain ⟨p, -, he⟩ := Option.map_eq_some_iff.mp he
      cases he
      cases hf
  | processUsedBy k j v =>
    simp only [exec] at he
    split at he <;> cases he <;> cases hf
  | casAsyncValuePtr k j v =>
    simp only [exec] at he
    split at he <;> cases he <;> cases hf
  | processReadyKernels => cases he
  | _ =>
    cases he
    cases hf

/-- The invariant rule for frames. -/
theorem Moves.forall_frames {P : Frame → Prop} (hP : Stable g start V E P)
    (hm : Moves g start s l s') (h : AllFrames P s) : AllFrames P s' := by
  have hstack : ∀ {t : Nat} {f : Frame} {stack : List Frame}, s.threads[t]? = some (f :: stack) →
      P f ∧ ∀ x ∈ stack, P x := by
    intro t f stack ht
    have := h _ (List.mem_of_getElem? ht)
    exact ⟨this f List.mem_cons_self, fun x hx => this x (List.mem_cons_of_mem _ hx)⟩
  cases hm with
  | pop ht => exact h.set (hstack ht).2
  | ends ht =>
    refine h.set fun f hf => ?_
    rcases List.mem_cons.mp hf with rfl | hf
    · exact hP.ends (hstack ht).1
    · exact (hstack ht).2 f hf
  | round ht =>
    refine h.set fun f hf => ?_
    rcases List.mem_cons.mp hf with rfl | hf
    · exact hP.round (hstack ht).1
    · exact (hstack ht).2 f hf
  | exec ht he =>
    refine h.set fun f hf => ?_
    rcases List.mem_append.mp hf with hf | hf
    · rcases exec_frames he hf with ⟨w, rfl⟩ | ⟨k, rfl⟩
      · exact hP.waiter w
      · exact hP.task k
    · rcases List.mem_cons.mp hf with rfl | hf
      · exact hP.exec he (hstack ht).1
      · exact (hstack ht).2 f hf
  | pick hk =>
    refine h.append fun f hf => ?_
    cases List.mem_singleton.mp hf
    exact hP.task _
  | resolve hp hr =>
    refine h.append fun f hf => ?_
    rcases List.mem_append.mp hf with hf | hf
    · exact hP.waiterFrames _ f hf
    · cases List.mem_singleton.mp hf
      exact hP.drop _
  | dropResult hr ht => exact h

/-- A property of all frames in every run. -/
theorem AllFrames.reach {P : Frame → Prop} (hP : Stable g start V E P) {heap : Heap V E Closure}
    {promised : Addr → Bool} {arguments : List Addr} {ok : St V E → Label V E → Prop}
    (h0 : P (mainFrame g start)) {s : St V E}
    (hs : (sys g start heap promised arguments).Reach ok s) : AllFrames P s := by
  refine hs.invariant (I := AllFrames P) (fun s h => ?_) fun s l s' h _ hn =>
    Moves.forall_frames hP (step_moves hn) h
  rw [show s = init g start heap promised arguments from h]
  intro st hst f hf
  cases List.mem_singleton.mp hst
  cases List.mem_singleton.mp hf
  exact h0

end Moves

/-! ## The loop of `ProcessReadyKernels` -/

/-- Operations that never add to the ready kernels of their frame. -/
def Op.isQuiet : Op → Bool
  | .installIndirect _ _ (.takeResult _) => true
  | .dropRef _ => true
  | .forwardTo _ _ => true
  | .getResult _ => true
  | .dropExecutor => true
  | _ => false

/-- The frame has no ready kernels and gets none any more, or the loop that processes them is still
to come. -/
def Frame.Drains (f : Frame) : Prop :=
  (∃ pre post, f.code = pre ++ .processReadyKernels :: post ∧ ∀ op ∈ post, op.isQuiet = true) ∨
    (f.ready = [] ∧ ∀ op ∈ f.code, op.isQuiet = true)

theorem exec_quiet {sh sh' : Shared V E} {c : Choice V E} {op : Op} {e : Effect}
    (he : exec g start sh c op = some (sh', e)) (hq : op.isQuiet = true) :
    e.ready = [] ∧ ∀ op ∈ e.code, op.isQuiet = true := by
  cases op with
  | installIndirect r ind cont =>
    cases cont with
    | addArg => cases hq
    | takeResult q =>
      simp only [exec] at he
      split at he <;> cases he <;> exact ⟨rfl, by simp [Cont.resume]⟩
  | getResult r =>
    cases he
    refine ⟨rfl, ?_⟩
    unfold getOrCreateAsyncValuePtr
    split
    · simp [Cont.resume]
    · simp [Op.isQuiet]
  | dropRef a | forwardTo i v | dropExecutor =>
    cases he
    exact ⟨rfl, by simp [Op.isQuiet]⟩
  | _ => cases hq

/-- The loop of `ProcessReadyKernels` comes after everything that makes kernels ready. -/
theorem stable_drains : Stable g start V E Frame.Drains where
  ends := by
    rintro rest (⟨pre, post, hcode, hq⟩ | ⟨-, hq⟩)
    · cases pre with
      | nil =>
        cases hcode
        exact .inr ⟨rfl, hq⟩
      | cons op pre =>
        cases hcode
        exact .inl ⟨pre, post, rfl, hq⟩
    · exact absurd (hq .processReadyKernels List.mem_cons_self) Bool.false_ne_true
  round := by
    rintro k ks rest (⟨pre, post, hcode, hq⟩ | ⟨hnil, -⟩)
    · cases pre with
      | nil =>
        cases hcode
        exact .inl ⟨ks.map .enqueueWork ++ [.processReadyKernel k], rest, by simp, hq⟩
      | cons op pre =>
        cases hcode
        exact .inl ⟨ks.map .enqueueWork ++ .processReadyKernel k :: .processReadyKernels :: pre, post,
          by simp, hq⟩
    · cases hnil
  exec := by
    rintro sh sh' c ready op rest e he (⟨pre, post, hcode, hq⟩ | ⟨hnil, hq⟩)
    · cases pre with
      | nil =>
        cases hcode
        cases he
      | cons op' pre =>
        cases hcode
        exact .inl ⟨e.code ++ pre, post, by simp, hq⟩
    · obtain ⟨hready, hcode⟩ := exec_quiet he (hq op List.mem_cons_self)
      refine .inr ⟨List.append_eq_nil_iff.mpr ⟨hnil, hready⟩, fun x hx => ?_⟩
      rcases List.mem_append.mp hx with hx | hx
      · exact hcode x hx
      · exact hq x (List.mem_cons_of_mem _ hx)
  task k := .inl ⟨[], [.dropExecutor], rfl, by simp [Op.isQuiet]⟩
  waiter w := by
    match w with
    | .forward i v => exact .inr ⟨rfl, by simp [waiterCode, Op.isQuiet]⟩
    | .client (.setAndDecrease k j v) =>
      exact .inl ⟨[.setAsyncValuePtr k j v], [.dropExecutor], rfl, by simp [Op.isQuiet]⟩
    | .client (.decrease j) =>
      exact .inl ⟨[.decreaseReadyCounts start j], [.dropExecutor], rfl, by simp [Op.isQuiet]⟩
  drop a := .inr ⟨rfl, by simp [Op.isQuiet]⟩

theorem drains_mainFrame : (mainFrame g start).Drains := by
  refine .inl ⟨(List.range (g.numResults start)).map .pseudoKernel,
    (g.resultRegs.take g.mOutputNames.length).map .getResult ++ [.dropExecutor],
    by simp [mainFrame], fun op hop => ?_⟩
  rcases List.mem_append.mp hop with hop | hop
  · obtain ⟨r, -, rfl⟩ := List.mem_map.mp hop
    rfl
  · cases List.mem_singleton.mp hop
    rfl

end GraphExecutor

end AsyncLib
