import ValueCore.Proofs.Table.Sound

/-!
# The writes of a table

Each write of `Table.Update` keeps the invariant, and changes the insertion order in one way:

| write | the order afterwards |
| --- | --- |
| `overwrite` | the same |
| `append i` | one slot more, `i`, at the end |
| `remove i` | the same without `i` |
| `addOverflow`, `doubled` | the same |
| `cleared`, `resized` | empty |

For each of them a slot lemma says what every single slot holds afterwards (`slot_append`, ...). The order
follows from it by cutting the old list at the slot that is written and relinking the two ends that meet
there (`linked_relink_end`, `linked_relink_start`).
-/

namespace ValueCore.Table

variable {κ : Type} {t t' : Table κ}

/-! ## Single slots -/

theorem slot_modifySlot (i j : Nat) (f : Entry κ → Entry κ) :
    (t.modifySlot i f).slot j = if j = i then (t.slot i).map f else t.slot j := by
  simp only [slot, modifySlot, Array.getElem?_modify]
  by_cases h : j = i
  · subst h
    rw [if_pos rfl, if_pos rfl]
    cases t.slots[j]? <;> rfl
  · simp [h, Ne.symm h]

theorem size_modifySlot (i : Nat) (f : Entry κ → Entry κ) :
    (t.modifySlot i f).slots.size = t.slots.size := by simp [modifySlot]

theorem getElem?_setIfInBounds_join {α : Type} {s : Array (Option α)} {i : Nat} (j : Nat) (x : Option α)
    (hi : i < s.size) : (s.setIfInBounds i x)[j]?.join = if j = i then x else s[j]?.join := by
  rw [Array.getElem?_setIfInBounds]
  by_cases h : i = j
  · subst h; simp [hi]
  · simp [h, Ne.symm h]

/-- Emptying slots one after the other empties exactly those. -/
theorem getElem?_foldl_empty {α : Type} : ∀ (is : List Nat) (s : Array (Option α)) (j : Nat),
    (is.foldl (fun s i => s.setIfInBounds i none) s)[j]?.join = if j ∈ is then none else s[j]?.join
  | [], _, _ => by simp
  | i :: is, s, j => by
    rw [List.foldl_cons, getElem?_foldl_empty is, Array.getElem?_setIfInBounds]
    by_cases hj : j ∈ is
    · simp [hj]
    · by_cases hi : i = j
      · subst hi; by_cases hs : i < s.size <;> simp [hj, hs]
      · simp [hj, hi, Ne.symm hi]

theorem size_foldl_empty {α : Type} : ∀ (is : List Nat) (s : Array (Option α)),
    (is.foldl (fun s i => s.setIfInBounds i none) s).size = s.size
  | [], _ => rfl
  | i :: is, s => by rw [List.foldl_cons, size_foldl_empty is, Array.size_setIfInBounds]

/-! ## Relinking -/

theorem some_ne_getLast? {is : List Nat} {j : Nat} (h : is.Nodup) (hj : j ∈ is.dropLast) : some j ≠ is.getLast? := by
  rcases List.eq_nil_or_concat' is with rfl | ⟨a, l, rfl⟩
  · simp at hj
  · simp only [List.dropLast_concat] at hj
    simp only [List.getLast?_concat, ne_eq, Option.some.injEq]
    exact (List.nodup_append.1 h).2.2 j hj l (by simp)

theorem some_ne_head? {is : List Nat} {j : Nat} (h : is.Nodup) (hj : j ∈ is.tail) : some j ≠ is.head? := by
  cases is with
  | nil => simp at hj
  | cons l b =>
    simp only [List.head?_cons, ne_eq, Option.some.injEq]
    exact ne_of_mem_of_not_mem hj (List.nodup_cons.1 h).1

/-- Only the slot at the end of a linked list is told of what comes after it. -/
theorem linked_relink_end {is : List Nat} {p n m : Option Nat} (h : Linked t p is n)
    (hkeep : ∀ j ∈ is.dropLast, t'.links j = t.links j)
    (hlast : ∀ l ∈ is.getLast?, t'.links l = (t.links l).map fun x => (x.1, m)) : Linked t' p is m := by
  rcases List.eq_nil_or_concat' is with rfl | ⟨a, l, rfl⟩
  · trivial
  · rw [linked_append] at h ⊢
    simp only [List.dropLast_concat] at hkeep
    refine ⟨(linked_congr hkeep).2 h.1, ?_, trivial⟩
    rw [hlast l (by simp), h.2.1]; simp

/-- Only the slot at the start of a linked list is told of what comes before it. -/
theorem linked_relink_start {is : List Nat} {p q n : Option Nat} (h : Linked t p is n)
    (hkeep : ∀ j ∈ is.tail, t'.links j = t.links j)
    (hfirst : ∀ l ∈ is.head?, t'.links l = (t.links l).map fun x => (q, x.2)) : Linked t' q is n := by
  cases is with
  | nil => trivial
  | cons l b =>
    refine ⟨?_, (linked_congr hkeep).2 h.2⟩
    rw [hfirst l (by simp), h.1]; rfl

/-- A write that keeps chains, links and hashes keeps the order. -/
theorem Ordered.congr {is : List Nat} (h : Ordered t is) (hheads : t'.heads = t.heads)
    (hused : t'.used = t.used) (hover : t'.overflow = t.overflow) (hfirst : t'.first = t.first)
    (hlast : t'.last = t.last) (hlength : t'.length = t.length) (hlinks : ∀ i, t'.links i = t.links i)
    (hhash : ∀ i, (t'.slot i).map (·.hash) = (t.slot i).map (·.hash)) : Ordered t' is := by
  have hchain : ∀ c, t'.chainSlots c = t.chainSlots c := fun c => by simp only [chainSlots, chain, hover]
  refine ⟨(linked_congr fun i _ => hlinks i).2 h.linked, hfirst ▸ h.first_eq, hlast ▸ h.last_eq,
    hlength ▸ h.length_eq, h.nodup, fun i => ?_, fun i hi e he => ?_⟩
  · rw [h.live, hused, ← links_isSome, ← links_isSome, hlinks]
  · have hh := hhash i
    rw [he] at hh
    obtain ⟨e', he', hee⟩ := Option.map_eq_some_iff.1 hh.symm
    simp only at hee
    rw [← hee, hchain, home, hheads]
    exact h.placed i hi e' he'

/-! ## Holding and freezing -/

@[simp] theorem order_flags (n : Nat) (b : Bool) :
    ({ t with holds := n, frozen := b } : Table κ).order = t.order := by
  have hslot : ∀ i, ({ t with holds := n, frozen := b } : Table κ).slot i = t.slot i := fun _ => rfl
  exact walk_congr hslot t.length t.first

/-- Holding or freezing a table touches neither storage nor entries. -/
theorem Sound.flags (h : Sound t) (n : Nat) (b : Bool) :
    Sound ({ t with holds := n, frozen := b } : Table κ) := by
  have hs : Storage ({ t with holds := n, frozen := b } : Table κ) := h.toStorage.congr rfl rfl rfl rfl rfl
  have ho : Ordered ({ t with holds := n, frozen := b } : Table κ) t.order :=
    h.toOrdered.congr rfl rfl rfl rfl rfl rfl (fun _ => rfl) fun _ => rfl
  exact hs.sound ho

/-! ## `overwrite` -/

theorem links_overwrite (i j : Nat) (v : Value) : (t.overwrite i v).links j = t.links j := by
  simp only [links, overwrite, slot_modifySlot]
  by_cases h : j = i
  · subst h; simp [Option.map_map, Function.comp_def]
  · simp [h]

theorem Sound.overwrite (h : Sound t) (i : Nat) (v : Value) :
    Sound (t.overwrite i v) ∧ (t.overwrite i v).order = t.order := by
  have ho : Ordered (t.overwrite i v) t.order := by
    refine h.toOrdered.congr rfl rfl rfl rfl rfl rfl (fun j => links_overwrite i j v) fun j => ?_
    simp only [Table.overwrite, slot_modifySlot]
    by_cases hj : j = i
    · subst hj; simp [Option.map_map, Function.comp_def]
    · simp [hj]
  have hs : Storage (t.overwrite i v) := h.toStorage.congr rfl rfl rfl (size_modifySlot i _) rfl
  exact ⟨hs.sound ho, ho.order_eq⟩

/-! ## `append` -/

/-- What the slots hold after an entry is appended in slot `i`. -/
theorem slot_append {i : Nat} (hi : i < t.slots.size) (hash : UInt32) (key : κ) (v : Value) (j : Nat) :
    (t.append i hash key v).slot j =
      if j = i then some ⟨hash, t.last, none, key, v⟩
      else if some j = t.last then (t.slot j).map fun e => { e with after := some i } else t.slot j := by
  unfold append
  cases hl : t.last with
  | none =>
    simp only [slot, getElem?_setIfInBounds_join j _ hi]
    simp
  | some l =>
    have hs : i < (t.modifySlot l fun e => { e with after := some i }).slots.size := by
      rw [size_modifySlot]; exact hi
    have := slot_modifySlot (t := t) l j fun e => { e with after := some i }
    simp only [slot] at this
    simp only [slot, getElem?_setIfInBounds_join j _ hs, this, Option.some.injEq]
    by_cases h1 : j = i
    · simp [h1]
    · by_cases h2 : j = l <;> simp [h1, h2]

theorem links_append {i j : Nat} (hi : i < t.slots.size) (hash : UInt32) (key : κ) (v : Value) (hji : j ≠ i) :
    (t.append i hash key v).links j =
      if some j = t.last then (t.links j).map fun x => (x.1, some i) else t.links j := by
  simp only [links, slot_append hi, hji, if_false]
  split <;> simp [Option.map_map, Function.comp_def]

/-- The parts of a table that appending an entry leaves alone. -/
theorem append_frame (i : Nat) (hash : UInt32) (key : κ) (v : Value) :
    (t.append i hash key v).heads = t.heads ∧ (t.append i hash key v).used = t.used ∧
    (t.append i hash key v).capacity = t.capacity ∧ (t.append i hash key v).overflow = t.overflow ∧
    (t.append i hash key v).slots.size = t.slots.size ∧ (t.append i hash key v).block = t.block ∧
    (t.append i hash key v).holds = t.holds ∧ (t.append i hash key v).frozen = t.frozen := by
  unfold append
  cases t.last <;> simp [modifySlot]

theorem append_ends (i : Nat) (hash : UInt32) (key : κ) (v : Value) :
    (t.append i hash key v).first = t.last.elim (some i) (fun _ => t.first) ∧
    (t.append i hash key v).last = some i ∧ (t.append i hash key v).length = t.length + 1 := by
  unfold append
  cases t.last <;> simp [modifySlot]

theorem Storage.append (h : Storage t) (i : Nat) (hash : UInt32) (key : κ) (v : Value) :
    Storage (t.append i hash key v) := by
  obtain ⟨h1, h2, h3, h4, h5, -⟩ := append_frame (t := t) i hash key v
  exact h.congr h1 h2 h3 h5 h4

theorem Ordered.append {is : List Nat} (hs : Storage t) (h : Ordered t is) {i : Nat} {hash : UInt32}
    (key : κ) (v : Value) (hempty : t.slot i = none) (hi : i ∈ t.chainSlots (t.home hash)) (hhash : hash ≠ 0) :
    Ordered (t.append i hash key v) (is ++ [i]) := by
  have hlt : i < bucketSize * t.used := hs.slot_lt (hs.home_lt hash) hi
  have hsize := hs.slot_lt_size hlt
  have hnot : i ∉ is := fun hm => by simpa [hempty] using ((h.live i).1 hm).2
  obtain ⟨e1, e2, _, e4, _⟩ := append_frame (t := t) i hash key v
  obtain ⟨f1, f2, f3⟩ := append_ends (t := t) i hash key v
  have hchain : ∀ c, (t.append i hash key v).chainSlots c = t.chainSlots c := fun c => by
    simp only [chainSlots, chain, e4]
  have hlinks := fun j (hj : j ∈ is) =>
    links_append hsize hash key v (ne_of_mem_of_not_mem hj hnot)
  refine ⟨?_, ?_, by simp [f2], by simp [f3, h.length_eq], ?_, fun j => ?_, fun j hj e he => ?_⟩
  · -- the old list is told that `i` comes next, and `i` that the old end comes before
    rw [linked_append]
    refine ⟨linked_relink_end h.linked (fun j hj => ?_) fun l hl => ?_, ?_, trivial⟩
    · rw [hlinks j (List.dropLast_subset _ hj), if_neg]
      rw [h.last_eq]
      exact some_ne_getLast? h.nodup hj
    · rw [hlinks l (List.mem_of_getLast? hl), if_pos (by rw [h.last_eq]; exact hl.symm)]
      simp
    · simp [links, slot_append hsize, h.last_eq]
  · rw [f1, h.last_eq, h.first_eq]
    cases is with
    | nil => rfl
    | cons a is => rw [List.getLast?_cons]; rfl
  · exact List.nodup_append.2 ⟨h.nodup, by simp, fun a ha b hb => by
      rw [List.mem_singleton.1 hb]; exact ne_of_mem_of_not_mem ha hnot⟩
  · rw [e2, slot_append hsize, List.mem_append, List.mem_singleton, h.live]
    by_cases hj : j = i
    · subst hj; simp [hlt]
    · simp only [hj, or_false, if_false]
      split <;> simp
  · rw [hchain, home, e1]
    rw [slot_append hsize] at he
    by_cases hji : j = i
    · subst hji
      simp only [if_true, Option.some.injEq] at he
      subst he
      exact ⟨hhash, hi⟩
    · have hj' : j ∈ is := by simpa [hji] using hj
      simp only [hji, if_false] at he
      split at he
      · obtain ⟨e', he', rfl⟩ := Option.map_eq_some_iff.1 he
        exact h.placed j hj' e' he'
      · exact h.placed j hj' e he

theorem Sound.append (h : Sound t) {i : Nat} {hash : UInt32} (key : κ) (v : Value) (hempty : t.slot i = none)
    (hi : i ∈ t.chainSlots (t.home hash)) (hhash : hash ≠ 0) :
    Sound (t.append i hash key v) ∧ (t.append i hash key v).order = t.order ++ [i] := by
  have ho := h.toOrdered.append h.toStorage key v hempty hi hhash
  exact ⟨(h.toStorage.append i hash key v).sound ho, ho.order_eq⟩

/-! ## `remove` -/

/-- What the slots hold after the entry in slot `i` is taken out. -/
theorem slot_remove {i : Nat} {e : Entry κ} (he : t.slot i = some e) (j : Nat) :
    (t.remove i).slot j = if j = i then none else
      let told := if some j = e.before then (t.slot j).map fun q => { q with after := e.after } else t.slot j
      if some j = e.after then told.map fun q => { q with before := e.before } else told := by
  have hi : i < t.slots.size := by
    by_contra hge
    simp [slot, Array.getElem?_eq_none (Nat.le_of_not_lt hge)] at he
  have hm := fun (t : Table κ) (l : Nat) (f : Entry κ → Entry κ) => slot_modifySlot (t := t) l j f
  simp only [slot] at hm
  simp only [remove, he]
  cases hb : e.before with
  | none =>
    cases ha : e.after with
    | none => simp only [slot, getElem?_setIfInBounds_join j _ hi]; simp
    | some n =>
      simp only [slot]
      rw [getElem?_setIfInBounds_join j _ (by simpa [modifySlot] using hi)]
      simp only [hm, Option.some.injEq]
      by_cases h1 : j = n <;> simp [h1]
  | some p =>
    cases ha : e.after with
    | none =>
      simp only [slot]
      rw [getElem?_setIfInBounds_join j _ (by simpa [modifySlot] using hi)]
      simp only [hm, Option.some.injEq]
      by_cases h1 : j = p <;> simp [h1]
    | some n =>
      simp only [slot]
      rw [getElem?_setIfInBounds_join j _ (by simpa [modifySlot] using hi)]
      simp only [hm, Option.some.injEq]
      by_cases h1 : j = n <;> by_cases h2 : j = p <;> simp_all

theorem remove_frame (i : Nat) :
    (t.remove i).heads = t.heads ∧ (t.remove i).used = t.used ∧ (t.remove i).capacity = t.capacity ∧
    (t.remove i).overflow = t.overflow ∧ (t.remove i).slots.size = t.slots.size ∧
    (t.remove i).block = t.block ∧ (t.remove i).holds = t.holds ∧ (t.remove i).frozen = t.frozen := by
  cases he : t.slot i with
  | none => simp [remove, he]
  | some e =>
    simp only [remove, he]
    cases e.before <;> cases e.after <;> simp [modifySlot]

theorem remove_ends {i : Nat} {e : Entry κ} (he : t.slot i = some e) :
    (t.remove i).first = e.before.elim e.after (fun _ => t.first) ∧
    (t.remove i).last = e.after.elim e.before (fun _ => t.last) ∧ (t.remove i).length = t.length - 1 := by
  simp only [remove, he]
  cases e.before <;> cases e.after <;> simp [modifySlot]

theorem Storage.remove (h : Storage t) (i : Nat) : Storage (t.remove i) := by
  obtain ⟨h1, h2, h3, h4, h5, -⟩ := remove_frame (t := t) i
  exact h.congr h1 h2 h3 h5 h4

theorem Ordered.remove {a b : List Nat} {i : Nat} (h : Ordered t (a ++ i :: b)) :
    Ordered (t.remove i) (a ++ b) := by
  obtain ⟨e, he, hb, ha⟩ := links_eq_some.1 (linked_at h.linked)
  simp only [Option.or_none] at hb ha
  have hnd := List.nodup_middle.1 h.nodup
  have hi : i ∉ a ++ b := (List.nodup_cons.1 hnd).1
  obtain ⟨hnda, hndb, hdis⟩ := List.nodup_append.1 (List.nodup_cons.1 hnd).2
  obtain ⟨e1, e2, _, e4, _⟩ := remove_frame (t := t) i
  obtain ⟨f1, f2, f3⟩ := remove_ends he
  have hchain : ∀ c, (t.remove i).chainSlots c = t.chainSlots c := fun c => by
    simp only [chainSlots, chain, e4]
  -- a slot before `i` is told of what comes after it only, and a slot behind `i` of what comes before
  have hlinksa : ∀ j ∈ a, (t.remove i).links j =
      if some j = a.getLast? then (t.links j).map fun x => (x.1, b.head?) else t.links j := fun j hj => by
    have h1 : j ≠ i := ne_of_mem_of_not_mem (List.mem_append_left b hj) hi
    have h2 : some j ≠ b.head? := fun hh => hdis j hj j (List.mem_of_mem_head? hh.symm) rfl
    simp only [links, slot_remove he, h1, if_false, hb, ha, h2]
    split <;> simp [Option.map_map, Function.comp_def]
  have hlinksb : ∀ j ∈ b, (t.remove i).links j =
      if some j = b.head? then (t.links j).map fun x => (a.getLast?, x.2) else t.links j := fun j hj => by
    have h1 : j ≠ i := ne_of_mem_of_not_mem (List.mem_append_right a hj) hi
    have h2 : some j ≠ a.getLast? := fun hh => hdis j (List.mem_of_getLast? hh.symm) j hj rfl
    simp only [links, slot_remove he, h1, if_false, hb, ha, h2]
    split <;> simp [Option.map_map, Function.comp_def]
  obtain ⟨hla, -, hlb⟩ := linked_append.1 h.linked
  refine ⟨?_, ?_, ?_, ?_, (List.nodup_cons.1 hnd).2, fun j => ?_, fun j hj q hq => ?_⟩
  · refine linked_append.2 ⟨linked_relink_end hla (fun j hj => ?_) fun l hl => ?_,
      linked_relink_start hlb (fun j hj => ?_) fun l hl => ?_⟩
    · rw [hlinksa j (List.dropLast_subset _ hj), if_neg (some_ne_getLast? hnda hj)]
    · rw [hlinksa l (List.mem_of_getLast? hl), if_pos hl.symm]; simp
    · rw [hlinksb j (List.mem_of_mem_tail hj), if_neg (some_ne_head? hndb hj)]
    · rw [hlinksb l (List.mem_of_mem_head? hl), if_pos hl.symm]; simp
  · rw [f1, hb, ha, h.first_eq]
    cases a with
    | nil => simp
    | cons x a => rw [List.getLast?_cons]; simp
  · rw [f2, hb, ha, h.last_eq]
    cases b with
    | nil => simp
    | cons x b => simp [List.getLast?_cons]
  · rw [f3, h.length_eq]; simp
  · have hl := h.live j
    rw [e2, slot_remove he]
    by_cases hj : j = i
    · subst hj; simpa using hi
    · have hm : j ∈ a ++ b ↔ j ∈ a ++ i :: b := by simp [hj]
      rw [hm, hl]
      simp only [hj, if_false]
      split <;> split <;> simp
  · have hji : j ≠ i := ne_of_mem_of_not_mem hj hi
    have hj' : j ∈ a ++ i :: b := by
      rcases List.mem_append.1 hj with h' | h' <;> simp [h']
    have hhash : (t.slot j).map (·.hash) = some q.hash := by
      have := congrArg (Option.map (·.hash)) hq
      simp only [slot_remove he, hji, if_false] at this
      revert this
      split <;> split <;> simp [Option.map_map, Function.comp_def]
    obtain ⟨q', hq', hqq⟩ := Option.map_eq_some_iff.1 hhash
    rw [hchain, home, e1, ← hqq]
    exact h.placed j hj' q' hq'

theorem Sound.remove (h : Sound t) {a b : List Nat} {i : Nat} (ho : t.order = a ++ i :: b) :
    Sound (t.remove i) ∧ (t.remove i).order = a ++ b := by
  have ho' : Ordered (t.remove i) (a ++ b) := (ho ▸ h.toOrdered).remove
  exact ⟨(h.toStorage.remove i).sound ho', ho'.order_eq⟩

end ValueCore.Table
