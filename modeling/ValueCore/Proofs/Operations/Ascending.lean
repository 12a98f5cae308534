import ValueCore.Proofs.Operations.Filling

/-!
# Fields in ascending order

Names are compared byte by byte as unsigned numbers, a proper beginning before its extensions: `compare` says which is
less in just this order (`compare_eq_lt`), and that two are the same only if they are equal.

| from | comes | because |
| --- | --- | --- |
| any list | `sortFields`, which is ascending but for repetitions | `ascending_sortBy` |
| an ascending list with repetitions | `setFields`, without them | `strict_setFields` |
| two strictly ascending lists | `mergeFields`, again strictly ascending | `strict_mergeFields` |

Sorting leaves items of one name in the order that they had (`filter_sortBy`). So it forgets everything else about the
order (`sortBy_congr`), and setting the sorted fields sets for each name what the last of them says
(`lookup_setFields_sortFields`).
-/

namespace ValueCore

open MapCall

/-! ## The order of byte strings -/

namespace Bytes

variable {a b c : Bytes}

/-- A comparison tells which is less in the order of lists of unsigned bytes. -/
theorem compare_eq_lt : compare a b = .lt ↔ a < b := by
  induction a generalizing b with
  | nil => cases b <;> simp
  | cons x a ih =>
    cases b with
    | nil => simp
    | cons y b => simp [List.compare_cons_cons, Ordering.then_eq_lt, ih, List.cons_lt_cons_iff, Std.compare_eq_lt]

theorem compare_eq_gt : compare a b = .gt ↔ b < a := by
  rw [Std.OrientedCmp.gt_iff_lt]
  exact compare_eq_lt

theorem le_iff : a.le b = true ↔ a < b ∨ a = b := by
  unfold le
  rw [Ordering.isLE_iff_eq_lt_or_eq_eq, compare_eq_lt, Std.compare_eq_iff_eq]

theorem le_total (a b : Bytes) : a.le b = true ∨ b.le a = true := by
  simp only [le_iff]
  rcases h : compare a b with _ | _ | _
  · exact .inl (.inl (compare_eq_lt.1 h))
  · exact .inl (.inr (Std.compare_eq_iff_eq.1 h))
  · exact .inr (.inl (compare_eq_gt.1 h))

theorem le_trans (h : a.le b = true) (h' : b.le c = true) : a.le c = true := Std.TransCmp.isLE_trans h h'

theorem le_antisymm (h : a.le b = true) (h' : b.le a = true) : a = b := by
  rcases le_iff.1 h with h | h
  · rcases le_iff.1 h' with h' | h'
    · exact absurd h' (List.lt_asymm h)
    · exact h'.symm
  · exact h

end Bytes

/-! ## Sorting -/

section
variable {α : Type} {name : α → Bytes}

theorem ascending_insertBy {x : α} : ∀ {l : List α}, l.Pairwise (fun y z => (name y).le (name z) = true) →
    (insertBy name x l).Pairwise fun y z => (name y).le (name z) = true
  | [], _ => List.pairwise_singleton _ _
  | y :: l, h => by
    obtain ⟨hy, hl⟩ := List.pairwise_cons.1 h
    unfold insertBy
    split
    · rename_i hxy
      refine List.pairwise_cons.2 ⟨fun z hz => ?_, h⟩
      rcases List.mem_cons.1 hz with rfl | hz
      · exact hxy
      · exact Bytes.le_trans hxy (hy z hz)
    · rename_i hxy
      have hyx : (name y).le (name x) = true := (Bytes.le_total _ _).resolve_left hxy
      refine List.pairwise_cons.2 ⟨fun z hz => ?_, ascending_insertBy hl⟩
      rcases mem_insertBy hz with rfl | hz
      · exact hyx
      · exact hy z hz

theorem ascending_sortBy : ∀ l : List α, (sortBy name l).Pairwise fun y z => (name y).le (name z) = true
  | [] => .nil
  | _ :: l => ascending_insertBy (ascending_sortBy l)

/-- An item goes in front of all items of its name. -/
theorem filter_insertBy (b : Bytes) (x : α) : ∀ l : List α,
    (insertBy name x l).filter (name · = b) = (x :: l).filter (name · = b)
  | [] => rfl
  | y :: l => by
    unfold insertBy
    split
    · rfl
    · rename_i hxy
      have hne : name x ≠ name y := fun h => hxy (Bytes.le_iff.2 (.inr h))
      rw [List.filter_cons, filter_insertBy b x l]
      by_cases hx : name x = b
      · have hy : name y ≠ b := fun h => hne (hx.trans h.symm)
        simp [hx, hy]
      · simp [List.filter_cons, hx]

/-- **Items of one name stay in their order.** -/
theorem filter_sortBy (b : Bytes) : ∀ l : List α, (sortBy name l).filter (name · = b) = l.filter (name · = b)
  | [] => rfl
  | x :: l => by rw [sortBy, filter_insertBy, List.filter_cons, List.filter_cons, filter_sortBy b l]

theorem perm_insertBy (x : α) : ∀ l : List α, (insertBy name x l).Perm (x :: l)
  | [] => .refl _
  | y :: l => by
    unfold insertBy
    split
    · exact .refl _
    · exact ((perm_insertBy x l).cons y).trans (.swap x y l)

theorem perm_sortBy : ∀ l : List α, (sortBy name l).Perm l
  | [] => .nil
  | x :: l => (perm_insertBy x _).trans ((perm_sortBy l).cons x)

/-- An ascending list is known by its items of each name. -/
theorem eq_of_filter_eq : ∀ {l m : List α}, l.Pairwise (fun y z => (name y).le (name z) = true) →
    m.Pairwise (fun y z => (name y).le (name z) = true) → (∀ b, l.filter (name · = b) = m.filter (name · = b)) → l = m
  | [], [], _, _, _ => rfl
  | [], y :: m, _, _, h => by simpa using h (name y)
  | x :: l, [], _, _, h => by simpa using h (name x)
  | x :: l, y :: m, hl, hm, h => by
    obtain ⟨hx, hltail⟩ := List.pairwise_cons.1 hl
    obtain ⟨hy, hmtail⟩ := List.pairwise_cons.1 hm
    -- each of the first items has its name in the other list, so neither is after the other
    have hxy : (name x).le (name y) = true := by
      have hmem : y ∈ (x :: l).filter (name · = name y) := by rw [h]; simp
      rcases List.mem_cons.1 (List.mem_filter.1 hmem).1 with rfl | hmem
      · exact Bytes.le_iff.2 (.inr rfl)
      · exact hx y hmem
    have hyx : (name y).le (name x) = true := by
      have hmem : x ∈ (y :: m).filter (name · = name x) := by rw [← h]; simp
      rcases List.mem_cons.1 (List.mem_filter.1 hmem).1 with rfl | hmem
      · exact Bytes.le_iff.2 (.inr rfl)
      · exact hy x hmem
    have hname := Bytes.le_antisymm hxy hyx
    obtain rfl : x = y := by simpa [hname] using congrArg List.head? (h (name y))
    refine congrArg (x :: ·) (eq_of_filter_eq hltail hmtail fun b => ?_)
    have hb := h b
    by_cases hxb : name x = b
    · simpa [hxb] using hb
    · simpa [hxb] using hb

/-- **Sorting forgets everything about the order but for items of one name.** -/
theorem sortBy_congr {l m : List α} (h : ∀ b, l.filter (name · = b) = m.filter (name · = b)) :
    sortBy name l = sortBy name m :=
  eq_of_filter_eq (ascending_sortBy l) (ascending_sortBy m) fun b => by rw [filter_sortBy, filter_sortBy, h b]

end

/-! ## Strictly ascending lists -/

/-- The names are in ascending order. -/
def Ascending (fields : List Field) : Prop := fields.Pairwise fun f g => f.1.le g.1 = true

/-- The names are in ascending order without repetitions. -/
def StrictlyAscending (fields : List Field) : Prop := fields.Pairwise fun f g => f.1 < g.1

theorem lookup_field_cons (name n : Bytes) (v : Value) (l : List Field) :
    List.lookup name ((n, v) :: l) = if name = n then some v else l.lookup name := by
  by_cases h : name = n
  · simp [h]
  · simp [List.lookup_cons, h, beq_eq_false_iff_ne.2 h]

theorem StrictlyAscending.ascending {fields : List Field} (h : StrictlyAscending fields) : Ascending fields :=
  h.imp fun hlt => Bytes.le_iff.2 (.inl hlt)

theorem mem_names_iff (name : Bytes) (l : List Field) : name ∈ l.map (·.1) ↔ (l.lookup name).isSome := by
  rw [List.lookup_isSome_iff]
  simp

/-- A list without repetitions is what can be looked up in it. -/
theorem mem_iff_lookup {name : Bytes} {value : Value} : ∀ {l : List Field}, (l.map (·.1)).Nodup →
    ((name, value) ∈ l ↔ l.lookup name = some value)
  | [], _ => by simp
  | (n, v) :: l, h => by
    rw [List.map_cons, List.nodup_cons, mem_names_iff] at h
    obtain ⟨hn, hl⟩ := h
    rw [List.mem_cons, mem_iff_lookup hl, lookup_field_cons]
    by_cases hname : name = n
    · subst hname
      have hnot : l.lookup name ≠ some value := fun h => hn (by rw [h]; rfl)
      simp [hnot, eq_comm]
    · simp [hname]

theorem lookup_perm {l m : List Field} (h : l.Perm m) (hd : (l.map (·.1)).Nodup) (name : Bytes) :
    l.lookup name = m.lookup name := by
  refine Option.ext fun value => ?_
  rw [← mem_iff_lookup hd, ← mem_iff_lookup ((h.map _).nodup_iff.1 hd), h.mem_iff]

theorem StrictlyAscending.nodup {fields : List Field} (h : StrictlyAscending fields) : (fields.map (·.1)).Nodup := by
  refine List.pairwise_map.2 (h.imp fun hlt heq => ?_)
  rw [heq] at hlt
  exact List.lt_irrefl _ hlt

theorem StrictlyAscending.mem_iff {name : Bytes} {value : Value} {fields : List Field} (h : StrictlyAscending fields) :
    (name, value) ∈ fields ↔ fields.lookup name = some value := mem_iff_lookup h.nodup

/-! ## Setting fields -/

/-- Setting a field keeps the names there are, and adds its own at the end if it is not among them. -/
theorem names_assign (name : Bytes) (value : Value) : ∀ l : List Field,
    (assign textKeys.same name value l).map (·.1) = if name ∈ l.map (·.1) then l.map (·.1) else l.map (·.1) ++ [name]
  | [] => rfl
  | (n, v) :: l => by
    unfold assign
    by_cases hn : name = n
    · simp [textKeys, hn]
    · simp only [textKeys, hn, decide_false, Bool.false_eq_true, if_false, List.map_cons, List.mem_cons, false_or]
      rw [show (fun a b : Bytes => decide (a = b)) = textKeys.same from rfl, names_assign name value l]
      split <;> rfl

theorem lookup_assign (name n : Bytes) (value : Value) : ∀ l : List Field,
    (assign textKeys.same name value l).lookup n = if n = name then some value else l.lookup n
  | [] => lookup_field_cons n name value []
  | (m, v) :: l => by
    have ih := lookup_assign name n value l
    unfold assign
    by_cases hm : name = m
    · subst hm
      simp only [textKeys, decide_true, if_true, lookup_field_cons]
      split <;> rfl
    · have hsame : textKeys.same name m = false := decide_eq_false hm
      simp only [hsame, Bool.false_eq_true, if_false, lookup_field_cons, ih]
      by_cases h : n = m
      · have hne : ¬ m = name := fun h => hm h.symm
        simp [h, hne]
      · simp [h]

/-- What is found after fields were set is what the last of them says, or what was there before. -/
theorem lookup_setFields (name : Bytes) : ∀ (fields l : List Field),
    (setFields fields l).lookup name = (fields.reverse.lookup name).or (l.lookup name)
  | [], _ => rfl
  | field :: fields, l => by
    have ih := lookup_setFields name fields (assign textKeys.same field.1 field.2 l)
    rw [lookup_assign] at ih
    rw [List.reverse_cons, List.lookup_append, Option.or_assoc]
    refine ih.trans (congrArg _ ?_)
    rw [show [field] = [(field.1, field.2)] from rfl, lookup_field_cons]
    split <;> simp

/-- A name that is not less than any may be set. -/
theorem strict_assign {name : Bytes} (value : Value) {l : List Field} (hl : StrictlyAscending l)
    (hle : ∀ f ∈ l, f.1.le name = true) : StrictlyAscending (assign textKeys.same name value l) := by
  refine List.pairwise_map.1 (?_ : ((assign textKeys.same name value l).map (·.1)).Pairwise (· < ·))
  have hnames : (l.map (·.1)).Pairwise (· < ·) := List.pairwise_map.2 hl
  rw [names_assign]
  split
  · exact hnames
  · rename_i hnew
    refine List.pairwise_append.2 ⟨hnames, List.pairwise_singleton _ _, fun n hn m hm => ?_⟩
    obtain rfl := List.mem_singleton.1 hm
    obtain ⟨f, hf, rfl⟩ := List.mem_map.1 hn
    exact (Bytes.le_iff.1 (hle f hf)).resolve_right fun h => hnew (h ▸ List.mem_map_of_mem hf)

/-- **Setting ascending fields gives a strictly ascending list.** Repetitions are next to each other, and each sets the
value of the last name there is. -/
theorem strict_setFields : ∀ {fields l : List Field}, Ascending fields → StrictlyAscending l →
    (∀ f ∈ l, ∀ g ∈ fields, f.1.le g.1 = true) → StrictlyAscending (setFields fields l)
  | [], _, _, hl, _ => hl
  | field :: fields, l, hfields, hl, hle => by
    obtain ⟨hfield, hfields⟩ := List.pairwise_cons.1 hfields
    show StrictlyAscending (setFields fields (assign textKeys.same field.1 field.2 l))
    refine strict_setFields hfields (strict_assign field.2 hl fun f hf => hle f hf field List.mem_cons_self)
      fun f hf g hg => ?_
    have hname : f.1 ∈ (assign textKeys.same field.1 field.2 l).map (·.1) := List.mem_map_of_mem hf
    rw [names_assign] at hname
    have hcases : f.1 ∈ l.map (·.1) ∨ f.1 = field.1 := by
      split at hname
      · exact .inl hname
      · simpa using hname
    rcases hcases with hold | heq
    · obtain ⟨f', hf', heq⟩ := List.mem_map.1 hold
      exact heq ▸ hle f' hf' g (List.mem_cons_of_mem _ hg)
    · exact heq ▸ hfield g hg

/-! ## The fields of a new struct -/

/-- What `create` makes of a list of fields. -/
def canonicalFields (fields : List Field) : List Field := setFields (sortFields fields) []

theorem strict_canonicalFields (fields : List Field) : StrictlyAscending (canonicalFields fields) :=
  strict_setFields (ascending_sortBy fields) .nil fun _ hf => (List.not_mem_nil hf).elim

theorem lookup_reverse (name : Bytes) (fields : List Field) :
    fields.reverse.lookup name = ((fields.filter (·.1 = name)).getLast?).map (·.2) := by
  have hlookup : ∀ l : List Field, l.lookup name = ((l.filter (·.1 = name)).head?).map (·.2) := by
    intro l
    induction l with
    | nil => rfl
    | cons f l ih =>
      rw [show f :: l = (f.1, f.2) :: l from rfl, lookup_field_cons, ih, List.filter_cons]
      by_cases h : f.1 = name
      · simp [h]
      · simp [h, Ne.symm h]
  rw [hlookup, List.filter_reverse, List.head?_reverse]

/-- **Each name has the value of its last occurrence.** -/
theorem lookup_canonicalFields (name : Bytes) (fields : List Field) :
    (canonicalFields fields).lookup name = fields.reverse.lookup name := by
  have hsort : (sortFields fields).reverse.lookup name = fields.reverse.lookup name := by
    rw [lookup_reverse, lookup_reverse, sortFields, filter_sortBy]
  rw [canonicalFields, lookup_setFields, hsort]
  simp

/-! ## Merging -/

theorem strict_weave {x : Field} {xs : List Field} (hx : ∀ f ∈ xs, x.1 < f.1)
    (hrest : ∀ {ys}, StrictlyAscending ys → StrictlyAscending (mergeFields xs ys)) :
    ∀ {ys : List Field}, StrictlyAscending ys → StrictlyAscending (weave x (mergeFields xs) ys)
  | [], hys => by
    refine List.pairwise_cons.2 ⟨?_, hrest hys⟩
    exact mem_mergeFields (P := fun f => x.1 < f.1) xs [] hx fun f hf => (List.not_mem_nil hf).elim
  | y :: ys, hys => by
    obtain ⟨hy, htail⟩ := List.pairwise_cons.1 hys
    unfold weave
    split <;> rename_i hc
    · rw [Bytes.compare_eq_lt] at hc
      refine List.pairwise_cons.2 ⟨?_, hrest hys⟩
      refine mem_mergeFields (P := fun f => x.1 < f.1) xs (y :: ys) hx fun f hf => ?_
      rcases List.mem_cons.1 hf with rfl | hf
      · exact hc
      · exact List.lt_trans hc (hy f hf)
    · obtain heq : x.1 = y.1 := Std.compare_eq_iff_eq.1 hc
      exact List.pairwise_cons.2 ⟨mem_mergeFields (P := fun f => y.1 < f.1) xs ys (heq ▸ hx) hy, hrest htail⟩
    · rw [Bytes.compare_eq_gt] at hc
      refine List.pairwise_cons.2 ⟨?_, strict_weave hx hrest htail⟩
      refine mem_mergeFields (P := fun f => y.1 < f.1) (x :: xs) ys (fun f hf => ?_) hy
      rcases List.mem_cons.1 hf with rfl | hf
      · exact hc
      · exact List.lt_trans hc (hx f hf)

/-- **Merging keeps to ascending order.** -/
theorem strict_mergeFields : ∀ {xs ys : List Field}, StrictlyAscending xs → StrictlyAscending ys →
    StrictlyAscending (mergeFields xs ys)
  | [], _, _, hys => hys
  | _ :: _, _, hxs, hys => by
    obtain ⟨hx, hxs⟩ := List.pairwise_cons.1 hxs
    exact strict_weave hx (fun hys => strict_mergeFields hxs hys) hys

end ValueCore
