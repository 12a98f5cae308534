import ValueCore.Proofs.Operations.Building

/-!
# All structs are in order

Merging, comparing and hashing go through the fields of a struct in order and take it for granted that this is the
order of their names. It is, for every struct there is (`Reachable.collated`): the fields are sorted, or merged from
sorted ones, before they are set, and once the struct is made nothing can change them.

That much can be said of the structs there are when an operation starts. What the host does in its midst may add further
ones, so the relation that is followed (`World.Collates`) speaks of all structs that there are at the end of it; the number
`n` is any that they do not exceed.
-/

namespace ValueCore

open World

variable {ε : Type} {I : Inventory ε} {n : Nat} {w w' v : World ε} {host : Host ε} {s : StructId}

/-! ## Steps -/

namespace World

/-- From `w` to `w'` by steps that leave all structs in order, if there are no more than `n`. -/
def Collates (I : Inventory ε) (n : Nat) (w w' : World ε) : Prop :=
  Evolves I 0 w w' ∧ (w.Sound I → w'.structs.size ≤ n → w.Collated → w'.Collated)

theorem Collated.same (hc : w.Collated) (h : SameStores w w') : w'.Collated := by
  intro s hs
  rw [h.structs] at hs
  rw [h.struct s, h.items]
  exact hc s hs

theorem collates_of_same (he : Evolves I 0 w w') (h : SameStores w w') : Collates I n w w' :=
  ⟨he, fun _ _ hc => hc.same h⟩

/-- A step of work adds no struct but an empty one. -/
theorem Work.items_of_new (hw : Work I n w w') (hge : w.structs.size ≤ s.index) (hlt : s.index < w'.structs.size) :
    (w'.table (w'.struct s).fields).items = [] := by
  have hsame : w'.structs = w.structs → (w'.table (w'.struct s).fields).items = [] := fun h => by
    rw [h] at hlt
    omega
  cases hw.step with
  | outside h => exact hsame h.structs
  | aside => exact hsame rfl
  | addTable kind heads block => exact hsame (structs_addTable kind _)
  | addStruct ctor heads block hp =>
    obtain rfl : s = ⟨w.structs.size⟩ := by
      rw [size_addStruct] at hlt
      cases s
      simp only [StructId.mk.injEq] at *
      omega
    have hs := Table.sound_withStorage (κ := Bytes) block hp (Nat.le_refl heads)
    rw [struct_addStruct_self, table_addStruct, table_addTable_self, Table.items_eq,
      Table.records_of_order_nil (hs.order_eq_nil rfl)]
    rfl
  | change t => exact hsame (structs_modifyTable t _)
  | resize t => exact hsame (structs_modifyTable t _)
  | freeze t => exact hsame (structs_modifyTable t _)
  | «open» t => exact hsame (structs_modifyTable t _)
  | close t => exact hsame (structs_modifyTable t _)

/-- It leaves the fields of the first `n` structs alone. -/
theorem Work.collates (hw : Work I n w w') : Collates I n w w' := by
  refine ⟨.step (hw.step.le (Nat.zero_le n)), fun h hle hc s hs => ?_⟩
  by_cases hold : s.index < w.structs.size
  · have hin := hw.step.within
    have hfields := h.fields s hold
    rw [hin.struct_eq s hold]
    rcases (hw.step.table h (w.struct s).fields hfields).store with hsame | ⟨hopen, _⟩
    · rw [hsame.kept.items_eq]
      exact hc s hold
    · exact absurd ⟨s, Nat.lt_of_lt_of_le hs hle, hold, rfl⟩ hopen
  · rw [hw.items_of_new (Nat.le_of_not_lt hold) hs]
    exact .nil

instance : Working I n (Collates I n) where
  outside h := collates_of_same (.step (.outside h)) (.of_alike h)
  trans h h' := ⟨h.1.trans h'.1, fun hs hle hc =>
    h'.2 (h.1.sound hs) hle (h.2 hs (Nat.le_trans h'.1.within.size_le hle) hc)⟩
  bracket {w w'} _ t ht hf h := by
    refine ⟨.bracket t ht hf h.1, fun hs hle hc => ?_⟩
    rw [World.letGo, structs_modifyTable] at hle
    have hheld : SameStores w (w.held t) := .flags t (fun t => { t with holds := t.holds + 1 }) fun _ => .flags _ _ _
    have hlet : SameStores w' (w'.letGo t) := .flags t (fun t => { t with holds := t.holds - 1 }) fun _ => .flags _ _ _
    exact (h.2 (hs.held t ht) hle (hc.same hheld)).same hlet
  evolves _ h := h.1
  work h := h.collates

end World

/-! ## Making structs -/

/-- The first few of ascending fields, set in a new struct, are in order. -/
theorem filledStruct_collates (h : w.Sound I) {ctor : Value} (hctor : w.Owns ctor) (hint : Nat) {fields : List Field}
    (hown : OwnsFields w fields) (hf : w.Collated → Ascending fields) :
    Collates I n w (filledStruct ctor hint fields w).2 := by
  have he : Evolves I 0 w (filledStruct ctor hint fields w).2 :=
    (filledStruct_along (R := Evolves I 0) h (Nat.zero_le _) hctor hint hown).ends
  rcases filledStruct_leaves ctor hint fields w with hv | ⟨s, done, hdone, hadds⟩
  · exact collates_of_same he (.of_alike hv)
  generalize (filledStruct ctor hint fields w).2 = v at he hadds ⊢
  refine ⟨he, fun _ _ hc s' hs' => ?_⟩
  by_cases hold : s'.index < w.structs.size
  · have hin := he.within
    -- the new field table is not that of a struct which was there before
    have hother : (⟨.text, (w.struct s').fields⟩ : TableRef) ≠ ⟨.text, (v.struct s).fields⟩ := fun heq => by
      have hfields := h.fields s' hold
      rw [eq_of_heq (Sigma.mk.inj heq).2] at hfields
      exact hin.fresh s (Nat.le_of_eq hadds.index.symm) (by rw [hadds.index, hadds.size]; omega) hfields
    rw [hin.struct_eq s' hold, hadds.table _ hother]
    exact hc s' hold
  · obtain rfl := hadds.eq_of_index (Nat.le_of_not_lt hold) hs'
    rw [hadds.items]
    exact strict_setFields ((hf hc).sublist hdone.sublist) .nil fun _ hm => (List.not_mem_nil hm).elim

instance : Building I (Collates I n) where
  same hp h := collates_of_same (Evolves.le hp (Nat.zero_le _)) h
  filled hint _ h hctor hown hf := filledStruct_collates h hctor hint hown hf

/-- **Every operation leaves all structs in order.** -/
theorem Operation.collates (hh : host.Follows I (Collates I n)) (hf : host.Freezes I (Collates I n)) (h : w.Sound I)
    (op : Operation) (hv : op.Valid w) : Collates I n w (op.run host w).2 := by
  by_cases hc : op.Changes
  · by_cases hm : op.Makes
    · cases op with
      | newTable kind hint => exact (newTable_along kind hint).discard
      | newDict hint => exact (newDict_along hint).discard
      | createStruct ctor fields => exact (createStruct_builds h hv.1 hv.2).discard
      | makeStruct positional fields => exact (makeStruct_builds h positional hv).discard
      | mergeStructs x y => exact (mergeStructs_builds hh h hv.1 hv.2).discard
      | _ => exact hm.elim
    · exact op.changes hh h hv hc hm
  · exact op.along hh h hv hc (op.freezes_along hf h hv)

/-- **In reachable worlds all structs are in order.** -/
theorem Reachable.collated (hr : Reachable I w) : w.Collated := by
  obtain ⟨w₀, hb, ha⟩ := hr
  have hop : ∀ {host : Host ε} {v : World ε} (op : Operation), Civil I host → v.Sound I → op.Valid v →
      Collates I w.structs.size v (op.run host v).2 := fun op hc hs hv => by
    obtain ⟨hfollows, hfreezes⟩ := hc.builds fun op hh hf h hv => op.collates hh hf h hv
    exact op.collates hfollows hfreezes hs hv
  refine (ha.builds hop hb.sound).2 hb.sound (Nat.le_refl _) fun s hs => ?_
  simp [hb.structs] at hs

end ValueCore
