import Mathlib.Data.List.Sort
import ValueCore.Proofs.Operations.Ascending

/-!
# The union of two lists of fields

`mergeFields` goes through two ascending lists at once. What it makes of them is their right-biased union (`UnionOf`): it
has the names of both, in strictly ascending order, and of two fields of one name the second list's.

A strictly ascending list is known by what can be looked up in it (`StrictlyAscending.eq_of_lookup`), so the union is one
list only (`UnionOf.eq`), and merging is associative because taking the first of several answers is (`mergeFields_assoc`).
-/

namespace ValueCore

open MapCall

variable {name : Bytes} {x : Field} {xs ys zs l m : List Field}

/-! ## Strictly ascending lists -/

theorem StrictlyAscending.lookup_of_lt : ∀ {l : List Field}, (∀ f ∈ l, name < f.1) → l.lookup name = none
  | [], _ => rfl
  | (n, v) :: l, h => by
    have hne : name ≠ n := fun heq => List.lt_irrefl n (heq ▸ h (n, v) List.mem_cons_self)
    rw [lookup_field_cons, if_neg hne]
    exact lookup_of_lt fun f hf => h f (List.mem_cons_of_mem _ hf)

/-- **A strictly ascending list is known by what can be looked up in it.** -/
theorem StrictlyAscending.eq_of_lookup (hl : StrictlyAscending l) (hm : StrictlyAscending m)
    (h : ∀ name, l.lookup name = m.lookup name) : l = m := by
  have : Std.Antisymm fun f g : Field => f.1 < g.1 := ⟨fun _ _ h h' => absurd h' (List.lt_asymm h)⟩
  have : Std.Irrefl fun f g : Field => f.1 < g.1 := ⟨fun _ h => List.lt_irrefl _ h⟩
  refine List.Pairwise.eq_of_mem_iff hl hm fun (name, value) => ?_
  rw [hl.mem_iff, hm.mem_iff, h]

/-- Setting strictly ascending fields one after the other lists them. -/
theorem setFields_append : ∀ {fields l : List Field}, StrictlyAscending (l ++ fields) → setFields fields l = l ++ fields
  | [], l, _ => (List.append_nil l).symm
  | (name, value) :: fields, l, h => by
    have hnew : ∀ item ∈ l, textKeys.same name item.1 = false := fun item hm => by
      have hlt := (List.pairwise_append.1 h).2.2 item hm (name, value) List.mem_cons_self
      exact decide_eq_false fun heq => List.lt_irrefl name (heq ▸ hlt)
    have hsplit : l ++ (name, value) :: fields = (l ++ [(name, value)]) ++ fields := by simp
    show setFields fields (assign textKeys.same name value l) = _
    rw [assign_of_not_found hnew, hsplit]
    exact setFields_append (hsplit ▸ h)

theorem StrictlyAscending.setFields_nil (h : StrictlyAscending l) : setFields l [] = l := setFields_append h

/-! ## Merging -/

theorem lookup_weave {rest : List Field → List Field}
    (hrest : ∀ {ys}, StrictlyAscending ys → (rest ys).lookup name = (ys.lookup name).or (xs.lookup name)) :
    ∀ {ys : List Field}, StrictlyAscending ys →
      (weave x rest ys).lookup name = (ys.lookup name).or ((x :: xs).lookup name)
  | [], hys => by
    show List.lookup name ((x.1, x.2) :: rest []) = (none : Option Value).or (List.lookup name ((x.1, x.2) :: xs))
    rw [lookup_field_cons, lookup_field_cons, hrest hys]
    rfl
  | y :: ys, hys => by
    obtain ⟨hy, htail⟩ := List.pairwise_cons.1 hys
    rw [show x :: xs = (x.1, x.2) :: xs from rfl, show y :: ys = (y.1, y.2) :: ys from rfl, lookup_field_cons,
      lookup_field_cons]
    unfold weave
    split <;> rename_i hc
    · -- the name of `x` is not in the other list
      rw [Bytes.compare_eq_lt] at hc
      have hnone : List.lookup x.1 ((y.1, y.2) :: ys) = none := by
        refine StrictlyAscending.lookup_of_lt fun f hf => ?_
        rcases List.mem_cons.1 hf with rfl | hf
        · exact hc
        · exact List.lt_trans hc (hy f hf)
      rw [show x :: rest (y :: ys) = (x.1, x.2) :: rest (y :: ys) from rfl, lookup_field_cons, hrest hys]
      by_cases hx : name = x.1
      · subst hx
        rw [lookup_field_cons] at hnone
        rw [if_pos rfl, if_pos rfl, hnone]
        rfl
      · rw [if_neg hx, if_neg hx]
        exact congrArg (Option.or · _) (lookup_field_cons name y.1 y.2 ys)
    · obtain heq : x.1 = y.1 := Std.compare_eq_iff_eq.1 hc
      rw [show y :: rest ys = (y.1, y.2) :: rest ys from rfl, lookup_field_cons, hrest htail, heq]
      split <;> rfl
    · rw [show y :: weave x rest ys = (y.1, y.2) :: weave x rest ys from rfl, lookup_field_cons, lookup_weave hrest htail,
        show x :: xs = (x.1, x.2) :: xs from rfl, lookup_field_cons]
      by_cases hname : name = y.1
      · rw [if_pos hname, if_pos hname]
        rfl
      · rw [if_neg hname, if_neg hname]

/-- **Merging looks a name up in the second list, and then in the first.** -/
theorem lookup_mergeFields (name : Bytes) : ∀ {xs ys : List Field}, StrictlyAscending ys →
    (mergeFields xs ys).lookup name = (ys.lookup name).or (xs.lookup name)
  | [], ys, _ => (Option.or_none (o := ys.lookup name)).symm
  | _ :: _, _, hys => lookup_weave (fun h => lookup_mergeFields name h) hys

theorem length_weave_le {rest : List Field → List Field} {n : Nat} (hrest : ∀ ys, (rest ys).length ≤ n + ys.length) :
    ∀ ys : List Field, (weave x rest ys).length ≤ n + 1 + ys.length
  | [] => by
    have := hrest []
    simp only [weave, List.length_cons] at *
    omega
  | y :: ys => by
    have hcons := hrest (y :: ys)
    have htail := hrest ys
    have ih := length_weave_le hrest ys
    unfold weave
    split <;> simp only [List.length_cons] at * <;> omega

theorem length_mergeFields_le : ∀ xs ys : List Field, (mergeFields xs ys).length ≤ xs.length + ys.length
  | [], _ => Nat.le_of_eq (Nat.zero_add _).symm
  | _ :: xs, ys => length_weave_le (length_mergeFields_le xs) ys

/-! ## The union -/

/-- The list has the names of both lists in strictly ascending order, each with the value that the second list has for it
and else with that of the first. -/
structure UnionOf (xs ys l : List Field) : Prop where
  ascending : StrictlyAscending l
  names : ∀ name, name ∈ l.map (·.1) ↔ name ∈ xs.map (·.1) ∨ name ∈ ys.map (·.1)
  value : ∀ name, l.lookup name = (ys.lookup name).or (xs.lookup name)

theorem unionOf_mergeFields (hxs : StrictlyAscending xs) (hys : StrictlyAscending ys) :
    UnionOf xs ys (mergeFields xs ys) := by
  refine ⟨strict_mergeFields hxs hys, fun name => ?_, fun name => lookup_mergeFields name hys⟩
  rw [mem_names_iff, mem_names_iff, mem_names_iff, lookup_mergeFields name hys, Option.isSome_or, Bool.or_eq_true, or_comm]

/-- There is one union. -/
theorem UnionOf.eq (h : UnionOf xs ys l) (h' : UnionOf xs ys m) : l = m :=
  h.ascending.eq_of_lookup h'.ascending fun name => (h.value name).trans (h'.value name).symm

/-- **The union is associative.** -/
theorem mergeFields_assoc (hxs : StrictlyAscending xs) (hys : StrictlyAscending ys) (hzs : StrictlyAscending zs) :
    mergeFields (mergeFields xs ys) zs = mergeFields xs (mergeFields ys zs) := by
  have hyz := strict_mergeFields hys hzs
  refine (strict_mergeFields (strict_mergeFields hxs hys) hzs).eq_of_lookup (strict_mergeFields hxs hyz) fun name => ?_
  rw [lookup_mergeFields name hzs, lookup_mergeFields name hys, lookup_mergeFields name hyz, lookup_mergeFields name hzs,
    Option.or_assoc]

end ValueCore
