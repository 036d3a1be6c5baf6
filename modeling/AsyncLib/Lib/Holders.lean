import Mathlib.Algebra.BigOperators.Group.List.Basic
import Mathlib.Data.List.Count
import Mathlib.Algebra.GroupWithZero.Nat
import Mathlib.Algebra.Group.Int.Defs

/-!
# References that running code holds

A reference-counted object is used by pieces of code, each of which holds a reference and drops it
as its last operation `d`. The code lies in the frames of threads, next to code that does not use
the object; the owner's code is the bottom frame of the first thread.

* `Owes d free code`: `code` drops a reference at its end, or consists of operations that meet `free`
  and do not use the object. `Owes.next` is the execution of its first operation.
* `owner`, `others`: the owner's frame, and all other frames. `sum_frames` splits a sum over all
  frames.
* `Ledger`: what the reference count says about them, and when the object was destroyed.
-/

namespace AsyncLib

namespace Holders

variable {α φ : Type} {d : α} {free : α → Prop}

/-- The code holds a reference that it drops at its end, or does not use the object. -/
def Owes (d : α) (free : α → Prop) (code : List α) : Prop :=
  (∃ pre, code = pre ++ [d] ∧ d ∉ pre) ∨ ∀ op ∈ code, free op

/-- Code with no drop does not use the object. -/
theorem Owes.unused {code : List α} (h : Owes d free code) (hd : d ∉ code) : ∀ op ∈ code, free op := by
  rcases h with ⟨pre, rfl, -⟩ | h
  · exact absurd (List.mem_append_right pre (List.mem_singleton.mpr rfl)) hd
  · exact h

/-- The first operation is replaced by `new`. -/
theorem Owes.next {op : α} {new rest : List α} (h : Owes d free (op :: rest))
    (hd : d ∉ new) (hnew : op = d ∨ free op → ∀ x ∈ new, free x) : Owes d free (new ++ rest) := by
  rcases h with ⟨pre, hpre, hnot⟩ | h
  · cases pre with
    | nil =>
      cases hpre
      exact .inr fun x hx => hnew (.inl rfl) x (by simpa using hx)
    | cons y pre =>
      cases hpre
      refine .inl ⟨new ++ pre, by simp, fun hm => ?_⟩
      rcases List.mem_append.mp hm with hm | hm
      · exact hd hm
      · exact hnot (List.mem_cons_of_mem _ hm)
  · refine .inr fun x hx => ?_
    rcases List.mem_append.mp hx with hx | hx
    · exact hnew (.inr (h op (by simp))) x hx
    · exact h x (List.mem_cons_of_mem _ hx)

/-- Code drops one reference at most. -/
theorem Owes.count [DecidableEq α] {code : List α} (hf : ¬ free d) (h : Owes d free code) :
    code.count d = if d ∈ code then 1 else 0 := by
  split
  · rename_i hm
    rcases h with ⟨pre, rfl, hnot⟩ | h
    · rw [List.count_append, List.count_eq_zero.mpr hnot, List.count_singleton_self]
    · exact absurd (h d hm) hf
  · rename_i hm
    exact List.count_eq_zero.mpr hm

/-! ## Frames -/

/-- The bottom frame of the first thread. -/
def owner (threads : List (List φ)) : Option φ := threads.head?.bind List.getLast?

/-- All other frames. -/
def others : List (List φ) → List φ
  | [] => []
  | main :: workers => main.dropLast ++ workers.flatten

theorem mem_frames {threads : List (List φ)} {f : φ} :
    f ∈ threads.flatten ↔ owner threads = some f ∨ f ∈ others threads := by
  cases threads with
  | nil => simp [owner, others]
  | cons main workers =>
    rcases List.eq_nil_or_concat main with rfl | ⟨main, last, rfl⟩
    · simp [owner, others]
    · simp only [List.flatten_cons, List.mem_append, owner, others, List.concat_eq_append,
        List.head?_cons, Option.bind_some, List.getLast?_append, List.getLast?_singleton,
        Option.some_or, Option.some.injEq, List.dropLast_concat, List.mem_singleton, @eq_comm _ f last]
      tauto

/-- What holds of all frames, after the thread `t` was changed. -/
theorem forall_set {P : φ → Prop} {threads : List (List φ)} {t : Nat} {new : List φ}
    (h : ∀ f ∈ threads.flatten, P f) (hn : ∀ f ∈ new, P f) :
    ∀ f ∈ (threads.set t new).flatten, P f := by
  intro f hf
  obtain ⟨stack, hs, hmem⟩ := List.mem_flatten.mp hf
  rcases List.mem_or_eq_of_mem_set hs with hs | he
  · exact h f (List.mem_flatten.mpr ⟨stack, hs, hmem⟩)
  · exact hn f (he ▸ hmem)

theorem forall_stack {P : φ → Prop} {threads : List (List φ)} {t : Nat} {stack : List φ}
    (h : ∀ f ∈ threads.flatten, P f) (ht : threads[t]? = some stack) : ∀ f ∈ stack, P f :=
  fun f hf => h f (List.mem_flatten.mpr ⟨stack, List.mem_of_getElem? ht, hf⟩)

/-- A sum over all frames. -/
theorem sum_frames (w : φ → Nat) (threads : List (List φ)) :
    (threads.flatten.map w).sum =
      (owner threads).elim 0 w + ((others threads).map w).sum := by
  cases threads with
  | nil => rfl
  | cons main workers =>
    rcases List.eq_nil_or_concat main with rfl | ⟨main, last, rfl⟩
    · simp [owner, others]
    · simp only [List.flatten_cons, List.map_append, List.sum_append, owner, others,
        List.concat_eq_append, List.head?_cons, Option.bind_some, List.getLast?_append,
        List.getLast?_singleton, Option.some_or, Option.elim_some, List.dropLast_concat,
        List.map_cons, List.map_nil, List.sum_cons, List.sum_nil]
      omega

/-! ## The ledger -/

section Ledger

variable [DecidableEq α] (d : α) (code : φ → List α)

/-- The frame has not dropped its reference. -/
def holds (f : φ) : Bool := decide (d ∈ code f)

/-- The owner has not dropped its reference. -/
def ownerHolds (threads : List (List φ)) : Bool := (owner threads).any (holds d code)

/-- The owner has dropped its reference; nothing is queued, running or registered. -/
structure Over (queued registered : Nat) (threads : List (List φ)) : Prop where
  owner : ownerHolds d code threads = false
  queued : queued = 0
  running : ∀ f ∈ others threads, holds d code f = false
  registered : registered = 0

instance (queued registered : Nat) (threads : List (List φ)) :
    Decidable (Over d code queued registered threads) :=
  decidable_of_iff (ownerHolds d code threads = false ∧ queued = 0 ∧
      (∀ f ∈ others threads, holds d code f = false) ∧ registered = 0)
    ⟨fun ⟨h1, h2, h3, h4⟩ => ⟨h1, h2, h3, h4⟩, fun h => ⟨h.1, h.2, h.3, h.4⟩⟩

/-- What `refs` references and `destroyed` destructions say about the owner, the `queued` items, the
frames that run, and the `registered` closures. -/
structure Ledger (free : α → Prop) (refs destroyed queued registered : Nat)
    (threads : List (List φ)) : Prop where
  refs : refs = (ownerHolds d code threads).toNat + queued +
    ((others threads).filter (holds d code)).length + registered
  /-- A frame without a reference does not use the object. -/
  unused : ∀ f ∈ others threads, holds d code f = false → ∀ op ∈ code f, free op
  once : destroyed ≤ 1
  destroyed : destroyed = 1 ↔ Over d code queued registered threads

variable {d code}

theorem sum_count {threads : List (List φ)} (hf : ¬ free d)
    (h : ∀ f ∈ threads.flatten, Owes d free (code f)) :
    (threads.flatten.map fun f => (code f).count d).sum =
      (ownerHolds d code threads).toNat + ((others threads).filter (holds d code)).length := by
  have hcount : ∀ f ∈ threads.flatten, (code f).count d = (holds d code f).toNat := by
    intro f hm
    rw [(h f hm).count hf, holds]
    split <;> simp [*]
  rw [sum_frames]
  congr 1
  · unfold ownerHolds
    cases ho : owner threads with
    | none => rfl
    | some f => exact hcount f (mem_frames.mpr (.inl ho))
  · rw [← List.countP_eq_length_filter]
    have hothers : ∀ f ∈ others threads, (code f).count d = (holds d code f).toNat := fun f hm =>
      hcount f (mem_frames.mpr (.inr hm))
    generalize others threads = fs at hothers
    induction fs with
    | nil => rfl
    | cons f fs ih =>
      rw [List.map_cons, List.sum_cons, List.countP_cons, ih fun x hx =>
        hothers x (List.mem_cons_of_mem f hx), hothers f (by simp)]
      cases holds d code f <;> simp +arith

/-- The ledger, from the number of all drops that are going to be executed. -/
theorem Ledger.of_count {refs destroyed queued registered : Nat} {threads : List (List φ)}
    (hf : ¬ free d) (h : ∀ f ∈ threads.flatten, Owes d free (code f))
    (hrefs : refs = queued + (threads.flatten.map fun f => (code f).count d).sum + registered)
    (hdes : destroyed = if refs = 0 then 1 else 0) :
    Ledger d code free refs destroyed queued registered threads := by
  rw [sum_count hf h] at hrefs
  refine ⟨by omega, fun f hm hh => ?_, by split at hdes <;> omega, ?_⟩
  · exact (h f (mem_frames.mpr (.inr hm))).unused (of_decide_eq_false hh)
  · have hzero : refs = 0 ↔ Over d code queued registered threads := by
      constructor
      · intro h0
        have hfilter : ((others threads).filter (holds d code)).length = 0 := by omega
        refine ⟨?_, by omega, fun f hm => ?_, by omega⟩
        · cases ho : ownerHolds d code threads with
          | false => rfl
          | true =>
            rw [ho] at hrefs
            simp at hrefs
            omega
        · rw [List.length_eq_zero_iff, List.filter_eq_nil_iff] at hfilter
          simpa using hfilter f hm
      · intro ho
        have hfilter : (others threads).filter (holds d code) = [] :=
          List.filter_eq_nil_iff.mpr fun f hm => by simp [ho.running f hm]
        rw [ho.owner, ho.queued, ho.registered, hfilter] at hrefs
        exact hrefs
    rw [← hzero, hdes]
    by_cases h0 : refs = 0
    · simp [h0]
    · simp [h0]

end Ledger

end Holders

end AsyncLib
