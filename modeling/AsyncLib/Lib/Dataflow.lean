import Mathlib.Data.List.Induction
import Mathlib.Data.List.Nodup
import Mathlib.Algebra.GroupWithZero.Nat
import Mathlib.Algebra.Group.Int.Defs

/-!
# Sequential evaluation of dataflow rules

A rule computes the values of its outputs from those of its inputs. A list of rules is evaluated in
order, each over the environment that the rules before it have left.

* `Rule.apply`, `eval`: one rule, and a list of rules.
* `Ordered`: no rule reads what it or a later one computes, and nothing is computed twice.
* `eval_eq`: in an ordered list every rule holds of the final environment.
* `eval_slice`: the rules that some outputs need give them the same values.
-/

namespace AsyncLib

namespace Dataflow

variable {X A : Type} [DecidableEq X]

/-- A rule of a dataflow program. -/
structure Rule (X A : Type) where
  ins : List X
  outs : List X
  fn : List A → List A

/-- The environment in which `xs` have the values `as`. -/
def assign (env : X → Option A) (xs : List X) (as : List A) : X → Option A :=
  fun x => ((xs.zip as).lookup x).or (env x)

/-- A rule whose inputs have values. -/
def Rule.apply (env : X → Option A) (n : Rule X A) : X → Option A :=
  match n.ins.mapM env with
  | none => env
  | some as => assign env n.outs (n.fn as)

/-- The rules, one after the other. -/
def eval (rules : List (Rule X A)) (env : X → Option A) : X → Option A := rules.foldl Rule.apply env

/-- The rules can be evaluated in this order. -/
structure Ordered (rules : List (Rule X A)) (env : X → Option A) : Prop where
  unique : (rules.flatMap Rule.outs).Nodup
  fresh : ∀ n ∈ rules, ∀ x ∈ n.outs, env x = none
  sorted : rules.Pairwise fun m n => ∀ x ∈ m.ins, x ∉ n.outs
  acyclic : ∀ n ∈ rules, ∀ x ∈ n.ins, x ∉ n.outs

section Lemmas

variable {env : X → Option A} {rules : List (Rule X A)} {n : Rule X A} {x : X}

theorem lookup_zip_of_not_mem {xs : List X} (hx : x ∉ xs) (as : List A) :
    (xs.zip as).lookup x = none := by
  rw [List.lookup_eq_none_iff]
  rintro ⟨y, a⟩ hp
  have hne : x ≠ y := fun he => hx (he ▸ (List.of_mem_zip hp).1)
  exact bne_iff_ne.mpr hne

theorem lookup_zip {xs : List X} (hn : xs.Nodup) {j : Nat} (hx : xs[j]? = some x) (as : List A) :
    (xs.zip as).lookup x = as[j]? := by
  induction xs generalizing j as with
  | nil => cases hx
  | cons y xs ih =>
    obtain ⟨hy, hn⟩ := List.nodup_cons.mp hn
    cases as with
    | nil => rfl
    | cons a as =>
      cases j with
      | zero =>
        cases hx
        exact List.lookup_cons_self
      | succ j =>
        have hne : x ≠ y := fun he => hy (he ▸ List.mem_of_getElem? hx)
        rw [List.zip_cons_cons, List.lookup_cons, beq_eq_false_iff_ne.mpr hne]
        exact ih hn hx as

/-- A rule changes nothing but its outputs. -/
theorem apply_of_not_mem (hx : x ∉ n.outs) : n.apply env x = env x := by
  unfold Rule.apply
  cases n.ins.mapM env with
  | none => rfl
  | some as =>
    show ((n.outs.zip (n.fn as)).lookup x).or (env x) = env x
    rw [lookup_zip_of_not_mem hx, Option.none_or]

theorem eval_of_not_mem (hx : ∀ n ∈ rules, x ∉ n.outs) : eval rules env x = env x := by
  induction rules generalizing env with
  | nil => rfl
  | cons n rules ih =>
    refine (ih fun m hm => hx m (List.mem_cons_of_mem n hm)).trans ?_
    exact apply_of_not_mem (hx n List.mem_cons_self)

theorem eval_append (l l' : List (Rule X A)) (env : X → Option A) :
    eval (l ++ l') env = eval l' (eval l env) := List.foldl_append

omit [DecidableEq X] in
/-- Reading a list of names that two environments agree on. -/
theorem mapM_congr {env' : X → Option A} {xs : List X} (h : ∀ x ∈ xs, env x = env' x) :
    xs.mapM env = xs.mapM env' := by
  induction xs with
  | nil => rfl
  | cons x xs ih =>
    rw [List.mapM_cons, List.mapM_cons, h x List.mem_cons_self,
      ih fun y hy => h y (List.mem_cons_of_mem x hy)]

omit [DecidableEq X] in
/-- Reading a list of names that all have values. -/
theorem mapM_eq_some {xs : List X} {as : List A} (h : xs.map env = as.map some) :
    xs.mapM env = some as := by
  induction xs generalizing as with
  | nil =>
    cases as with
    | nil => rfl
    | cons a as => cases h
  | cons y xs ih =>
    cases as with
    | nil => cases h
    | cons a as =>
      rw [List.map_cons, List.map_cons, List.cons.injEq] at h
      rw [List.mapM_cons, h.1, ih h.2]
      rfl

/-- A rule reads its inputs from the final environment: nothing that comes after a rule changes what
it read or computed. -/
theorem eval_outs (h : Ordered rules env) (hn : n ∈ rules) {j : Nat} (hx : n.outs[j]? = some x) :
    eval rules env x = (n.ins.mapM (eval rules env)).bind fun as => (n.fn as)[j]? := by
  obtain ⟨l, l', rfl⟩ := List.append_of_mem hn
  have hxn := List.mem_of_getElem? hx
  obtain ⟨-, hcons, -⟩ := List.pairwise_append.mp h.sorted
  have hlater : ∀ m ∈ l', ∀ y ∈ n.ins, y ∉ m.outs := fun m hm =>
    (List.pairwise_cons.mp hcons).1 m hm
  have huniq := h.unique
  rw [List.flatMap_append, List.flatMap_cons] at huniq
  obtain ⟨-, hrest, hdisj⟩ := List.nodup_append.mp huniq
  obtain ⟨houts, -, hdisj'⟩ := List.nodup_append.mp hrest
  -- the environment that the rule is applied to
  have hins : ∀ y ∈ n.ins, eval (l ++ n :: l') env y = eval l env y := by
    intro y hy
    rw [eval_append]
    refine (eval_of_not_mem fun m hm => ?_).trans rfl
    rcases List.mem_cons.mp hm with rfl | hm
    · exact h.acyclic _ (by simp) y hy
    · exact hlater m hm y hy
  have hread : n.ins.mapM (eval (l ++ n :: l') env) = n.ins.mapM (eval l env) := mapM_congr hins
  have hbefore : eval l env x = none := by
    rw [eval_of_not_mem fun m hm hxm => ?_]
    · exact h.fresh n (by simp) x hxn
    · exact hdisj x (List.mem_flatMap.mpr ⟨m, hm, hxm⟩) x (List.mem_append_left _ hxn) rfl
  have hafter : ∀ m ∈ l', x ∉ m.outs := fun m hm hxm =>
    hdisj' x hxn x (List.mem_flatMap.mpr ⟨m, hm, hxm⟩) rfl
  calc eval (l ++ n :: l') env x = eval l' (n.apply (eval l env)) x := by rw [eval_append]; rfl
    _ = n.apply (eval l env) x := eval_of_not_mem hafter
    _ = (n.ins.mapM (eval l env)).bind fun as => (n.fn as)[j]? := by
      unfold Rule.apply
      cases n.ins.mapM (eval l env) with
      | none => exact hbefore
      | some as =>
        show assign (eval l env) n.outs (n.fn as) x = _
        rw [assign, lookup_zip houts hx, hbefore, Option.or_none]
        rfl
    _ = _ := by rw [hread]

/-- **Every rule holds of the final environment.** -/
theorem eval_eq (h : Ordered rules env) (hn : n ∈ rules) {as : List A}
    (has : n.ins.map (eval rules env) = as.map some) {j : Nat} (hx : n.outs[j]? = some x) :
    eval rules env x = (n.fn as)[j]? := by
  rw [eval_outs h hn hx, mapM_eq_some has]
  rfl

/-- **Slicing**: a part of the rules that holds the rule of each name it reads computes what all the
rules compute. -/
theorem eval_slice {rules' : List (Rule X A)} {env' : X → Option A} (h : Ordered rules env)
    (h' : Ordered rules' env') (hsub : ∀ m ∈ rules', m ∈ rules)
    (hclosed : ∀ m ∈ rules', ∀ y ∈ m.ins, (∃ m' ∈ rules', y ∈ m'.outs) ∨
      (∀ m' ∈ rules, y ∉ m'.outs) ∧ env' y = env y) :
    ∀ m ∈ rules', ∀ y ∈ m.outs, eval rules' env' y = eval rules env y := by
  -- the rules of a beginning of the list, which read what rules before them compute
  have key : ∀ l l', rules' = l ++ l' →
      ∀ m ∈ l, ∀ y ∈ m.outs, eval rules' env' y = eval rules env y := by
    intro l
    induction l using List.reverseRecOn with
    | nil => exact fun l' _ m hm => absurd hm List.not_mem_nil
    | append_singleton l n ih =>
      intro l' hl
      rw [List.append_assoc, List.singleton_append] at hl
      intro m hm
      rcases List.mem_append.mp hm with hm | hm
      · exact ih (n :: l') hl m hm
      · obtain rfl := List.mem_singleton.mp hm
        have hmem : m ∈ rules' := hl ▸ List.mem_append_right l List.mem_cons_self
        have hins : ∀ y ∈ m.ins, eval rules' env' y = eval rules env y := by
          intro y hy
          rcases hclosed m hmem y hy with ⟨k, hk, hyk⟩ | ⟨hno, he⟩
          · have hk' := hk
            rw [hl] at hk'
            rcases List.mem_append.mp hk' with hk' | hk'
            · exact ih (m :: l') hl k hk' y hyk
            · rcases List.mem_cons.mp hk' with rfl | hk'
              · exact absurd hyk (h'.acyclic k hmem y hy)
              · have hsorted := h'.sorted
                rw [hl] at hsorted
                obtain ⟨-, hcons, -⟩ := List.pairwise_append.mp hsorted
                exact absurd hyk ((List.pairwise_cons.mp hcons).1 k hk' y hy)
          · rw [eval_of_not_mem fun k hk => hno k (hsub k hk), eval_of_not_mem hno, he]
        intro y hy
        obtain ⟨j, hj⟩ := List.mem_iff_getElem?.mp hy
        rw [eval_outs h' hmem hj, eval_outs h (hsub m hmem) hj, mapM_congr hins]
  exact key rules' [] (List.append_nil rules').symm

end Lemmas

end Dataflow

end AsyncLib
