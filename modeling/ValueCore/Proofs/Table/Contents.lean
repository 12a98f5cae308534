import ValueCore.Proofs.Table.Buckets

/-!
# The contents of a table

`records` is all that a table holds, in insertion order: each key and value with the hash it is stored
under. It forgets slots, chains and links, and every write has one equation for it:

| write | the records afterwards |
| --- | --- |
| `overwrite i v` | the value of the record of slot `i` is `v` |
| `append`, also in a new bucket | one record more, at the end |
| `remove i` | the same without the record of slot `i` |
| `addOverflow`, `doubled` | the same |
| `cleared`, `resized` | none |

`items` is `records` without the hashes.
-/

namespace ValueCore.Table

variable {κ : Type} {t : Table κ}

/-- A key and a value with the hash they are stored under. -/
abbrev Record (κ : Type) := UInt32 × κ × Value

/-- The record in a slot. -/
def recordAt (t : Table κ) (i : Nat) : Option (Record κ) := (t.slot i).map fun e => (e.hash, e.key, e.value)

/-- Everything the table holds, in insertion order. -/
def records (t : Table κ) : List (Record κ) := t.order.filterMap t.recordAt

theorem recordAt_eq_some {i : Nat} {e : Entry κ} (he : t.slot i = some e) :
    t.recordAt i = some (e.hash, e.key, e.value) := by rw [recordAt, he]; rfl

theorem entries_map_record : t.entries.map (fun e => (e.hash, e.key, e.value)) = t.records := by
  simp only [entries, records, List.map_filterMap]; rfl

theorem items_eq : t.items = t.records.map (·.2) := by
  rw [← entries_map_record, items, List.map_map]; rfl

theorem keys_eq : t.keys = t.records.map (·.2.1) := by
  rw [keys, items_eq, List.map_map]; rfl

theorem records_of_order {t' : Table κ} (ho : t'.order = t.order)
    (hr : ∀ i ∈ t.order, t'.recordAt i = t.recordAt i) : t'.records = t.records := by
  rw [records, records, ho]
  exact List.filterMap_congr hr

theorem mem_records {r : Record κ} :
    r ∈ t.records ↔ ∃ i ∈ t.order, ∃ e, t.slot i = some e ∧ (e.hash, e.key, e.value) = r := by
  simp only [records, List.mem_filterMap, recordAt, Option.map_eq_some_iff]

@[simp] theorem records_flags (n : Nat) (b : Bool) :
    ({ t with holds := n, frozen := b } : Table κ).records = t.records :=
  records_of_order (order_flags n b) fun _ _ => rfl

@[simp] theorem items_flags (n : Nat) (b : Bool) :
    ({ t with holds := n, frozen := b } : Table κ).items = t.items := by
  rw [items_eq, records_flags, items_eq]

theorem records_of_order_nil (h : t.order = []) : t.records = [] := by rw [records, h]; rfl

/-- The records around the one of a live slot. -/
theorem records_split {a b : List Nat} {i : Nat} {e : Entry κ} (ho : t.order = a ++ i :: b)
    (he : t.slot i = some e) :
    t.records = a.filterMap t.recordAt ++ (e.hash, e.key, e.value) :: b.filterMap t.recordAt := by
  rw [records, ho, List.filterMap_append, List.filterMap_cons_some (recordAt_eq_some he)]

namespace Sound

theorem length_records (h : Sound t) : t.records.length = t.length := by
  have key : ∀ is : List Nat, (∀ i ∈ is, (t.slot i).isSome) → (is.filterMap t.recordAt).length = is.length := by
    intro is
    induction is with
    | nil => intro _; rfl
    | cons i is ih =>
      intro hlive
      obtain ⟨e, he⟩ := Option.isSome_iff_exists.1 (hlive i (by simp))
      rw [List.filterMap_cons_some (recordAt_eq_some he), List.length_cons, List.length_cons,
        ih fun j hj => hlive j (by simp [hj])]
  rw [records, key _ fun i hi => ((h.live i).1 hi).2, h.length_eq]

/-- A candidate for a key is a live entry. -/
theorem item_of_candidate (h : Sound t) {hash : UInt32} {c : Nat × κ} (hc : c ∈ t.candidates hash) :
    ∃ e, t.slot c.1 = some e ∧ e.hash = hash ∧ e.key = c.2 ∧ (e.key, e.value) ∈ t.items := by
  obtain ⟨hi, e, he, hash, hk⟩ := h.mem_candidates.1 hc
  refine ⟨e, he, hash, hk, ?_⟩
  rw [items_eq, List.mem_map]
  exact ⟨_, mem_records.2 ⟨_, hi, e, he, rfl⟩, rfl⟩

theorem length_items (h : Sound t) : t.items.length = t.length := by
  rw [items_eq, List.length_map, h.length_records]

/-! ## The records after a write -/

theorem records_overwrite (h : Sound t) {a b : List Nat} {i : Nat} {e : Entry κ} (ho : t.order = a ++ i :: b)
    (he : t.slot i = some e) (v : Value) :
    (t.overwrite i v).records =
      a.filterMap t.recordAt ++ (e.hash, e.key, v) :: b.filterMap t.recordAt := by
  have hi := (List.nodup_cons.1 (List.nodup_middle.1 (ho ▸ h.nodup))).1
  have hother : ∀ j, j ≠ i → (t.overwrite i v).recordAt j = t.recordAt j := fun j hj => by
    simp only [recordAt, Table.overwrite, slot_modifySlot, hj, if_false]
  have hself : (t.overwrite i v).slot i = some { e with value := v } := by
    simp [Table.overwrite, slot_modifySlot, he]
  rw [records_split ((h.overwrite i v).2.trans ho) hself]
  congr 1
  · exact List.filterMap_congr fun j hj => hother j (ne_of_mem_of_not_mem (List.mem_append_left b hj) hi)
  · congr 1
    exact List.filterMap_congr fun j hj => hother j (ne_of_mem_of_not_mem (List.mem_append_right a hj) hi)

theorem recordAt_append {i j : Nat} (hi : i < t.slots.size) (hash : UInt32) (key : κ) (v : Value) :
    (t.append i hash key v).recordAt j = if j = i then some (hash, key, v) else t.recordAt j := by
  simp only [recordAt, slot_append hi]
  by_cases hj : j = i
  · simp [hj]
  · simp only [hj, if_false]
    split <;> simp [Option.map_map, Function.comp_def]

theorem records_append (h : Sound t) {i : Nat} {hash : UInt32} (key : κ) (v : Value) (hempty : t.slot i = none)
    (hi : i ∈ t.chainSlots (t.home hash)) (hhash : hash ≠ 0) :
    (t.append i hash key v).records = t.records ++ [(hash, key, v)] := by
  have hsize := h.slot_lt_size (h.slot_lt (h.home_lt hash) hi)
  have hnot : i ∉ t.order := fun hm => by simpa [hempty] using ((h.live i).1 hm).2
  rw [records, (h.append key v hempty hi hhash).2, List.filterMap_append]
  congr 1
  · refine List.filterMap_congr fun j hj => ?_
    rw [recordAt_append hsize, if_neg (ne_of_mem_of_not_mem hj hnot)]
  · rw [List.filterMap_cons_some (by rw [recordAt_append hsize, if_pos rfl]), List.filterMap_nil]

theorem records_remove (h : Sound t) {a b : List Nat} {i : Nat} {e : Entry κ} (ho : t.order = a ++ i :: b)
    (he : t.slot i = some e) :
    (t.remove i).records = a.filterMap t.recordAt ++ b.filterMap t.recordAt := by
  have hi := (List.nodup_cons.1 (List.nodup_middle.1 (ho ▸ h.nodup))).1
  have hother : ∀ j ∈ a ++ b, (t.remove i).recordAt j = t.recordAt j := fun j hj => by
    simp only [recordAt, slot_remove he, ne_of_mem_of_not_mem hj hi, if_false]
    split <;> split <;> simp [Option.map_map, Function.comp_def]
  rw [records, (h.remove ho).2, List.filterMap_congr hother, List.filterMap_append]

/-- Removing takes a record away at most. -/
theorem records_remove_sublist (h : Sound t) {i : Nat} (hi : i ∈ t.order) : (t.remove i).records.Sublist t.records := by
  obtain ⟨a, b, ho⟩ := List.append_of_mem hi
  obtain ⟨e, he⟩ := h.slot_of_mem hi
  rw [h.records_remove ho he, records_split ho he]
  exact List.Sublist.append_left (List.sublist_cons_self _ _) _

theorem records_doubled (h : Sound t) (block : Option Block) : (t.doubled block).records = t.records :=
  records_of_order (h.doubled block).2 fun i _ => by rw [recordAt, slot_doubled, recordAt]

theorem records_extend (h : Sound t) {hash : UInt32} (key : κ) (v : Value) (hroom : t.used < t.capacity)
    (hhash : hash ≠ 0) :
    ((t.addOverflow (t.home hash)).append (bucketSize * t.used) hash key v).records =
      t.records ++ [(hash, key, v)] := by
  have hs := h.toStorage.addOverflow (h.home_lt hash) hroom
  have hsize : bucketSize * t.used < (t.addOverflow (t.home hash)).slots.size := by
    have := (addOverflow_frame (t := t) (t.home hash)).2.1
    rw [hs.slots_size, this]
    simp only [bucketSize]; omega
  have hlt : ∀ j ∈ t.order, j < bucketSize * t.used := fun j hj => ((h.live j).1 hj).1
  rw [records, (h.extend key v hroom hhash).2, List.filterMap_append]
  congr 1
  · refine List.filterMap_congr fun j hj => ?_
    have hj' := div_bucketSize_lt.2 (hlt j hj)
    rw [recordAt_append hsize, if_neg (Nat.ne_of_lt (hlt j hj)), recordAt, slot_addOverflow,
      if_neg (by omega), recordAt]
  · rw [List.filterMap_cons_some (by rw [recordAt_append hsize, if_pos rfl]), List.filterMap_nil]

end Sound

end ValueCore.Table
