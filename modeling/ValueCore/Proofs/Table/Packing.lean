import ValueCore.Proofs.Table.Changes

/-!
# Tables that nothing was erased from

As long as nothing is erased a table stays packed: a chain gets another bucket only when all that it has are full. Then
a table that is not overloaded never has twice as many buckets in use as chains (`Packed.used_lt`), which is far from
every limit. A table that was sized for its entries beforehand is not overloaded either (`headsFor_fits`), so nothing can
go wrong in filling it but that the allocator refuses a block.
-/

namespace ValueCore

/-! ## Sizing -/

theorem overloaded_mono {count count' heads : Nat} (h : count' ≤ count) (ho : overloaded count heads = false) :
    overloaded count' heads = false := by
  simp only [overloaded, Bool.and_eq_false_iff, decide_eq_false_iff_not] at *
  omega

theorem overloaded_of_le {count heads heads' : Nat} (h : heads ≤ heads') (ho : overloaded count heads = false) :
    overloaded count heads' = false := by
  simp only [overloaded, Bool.and_eq_false_iff, decide_eq_false_iff_not] at *
  omega

/-- What the limit admits is a size hint. -/
theorem toNat_hint {n : Nat} (h : overloaded n maxHeads = false) : n.toUInt32.toNat = n := by
  simp only [overloaded, Bool.and_eq_false_iff, decide_eq_false_iff_not] at h
  rw [Nat.toUInt32_eq, UInt32.toNat_ofNat']
  simp only [maxHeads] at h
  omega

theorem headsFrom_fits {hint heads : Nat} : ∀ {fuel start : Nat}, headsFrom hint fuel start = some heads →
    overloaded hint heads = false ∧ heads ≤ 2 ^ fuel * start
  | 0, start, h => by
    unfold headsFrom at h
    split at h
    · cases h
    · rename_i ho
      cases h
      exact ⟨by simpa using ho, by omega⟩
  | fuel + 1, start, h => by
    unfold headsFrom at h
    split at h
    · obtain ⟨ho, hle⟩ := headsFrom_fits h
      exact ⟨ho, by rw [Nat.pow_succ, Nat.mul_assoc]; exact hle⟩
    · rename_i ho
      cases h
      exact ⟨by simpa using ho, Nat.le_mul_of_pos_left _ (Nat.two_pow_pos _)⟩

/-- Chains chosen for `hint` entries hold so many, and are within the limit. -/
theorem headsFor_fits {hint heads : Nat} (h : headsFor hint = some heads) :
    overloaded hint heads = false ∧ heads ≤ maxHeads := by
  obtain ⟨ho, hle⟩ := headsFrom_fits h
  exact ⟨ho, by simpa [maxHeads] using hle⟩

/-- Twice as many entries as the limit admits. -/
theorem double_le_of_fits {count : Nat} (h : overloaded count maxHeads = false) : 2 * count ≤ 13 * maxHeads := by
  simp only [overloaded, Bool.and_eq_false_iff, decide_eq_false_iff_not] at h
  simp only [maxHeads] at h ⊢
  omega

/-- A hint that is not refused is for no more entries than a view may have room for. -/
theorem le_of_headsFor {hint heads : Nat} (h : headsFor hint = some heads) : hint ≤ 13 * maxHeads := by
  obtain ⟨ho, hle⟩ := headsFor_fits h
  have hdouble := double_le_of_fits (overloaded_of_le hle ho)
  omega

theorem overloaded_of_headsFrom {hint : Nat} : ∀ {fuel start : Nat}, headsFrom hint fuel start = none →
    overloaded hint (2 ^ fuel * start) = true
  | 0, start, h => by
    unfold headsFrom at h
    split at h
    · simpa
    · cases h
  | fuel + 1, start, h => by
    unfold headsFrom at h
    split at h
    · rw [Nat.pow_succ, Nat.mul_assoc]
      exact overloaded_of_headsFrom h
    · cases h

/-- There are chains for as many entries as the limit admits. -/
theorem headsFor_of_fits {hint : Nat} (h : overloaded hint maxHeads = false) : ∃ heads, headsFor hint = some heads := by
  cases hh : headsFor hint with
  | some heads => exact ⟨heads, rfl⟩
  | none =>
    have ho := overloaded_of_headsFrom hh
    rw [Nat.mul_one] at ho
    exact absurd (h.symm.trans ho) Bool.false_ne_true

namespace Table

variable {κ : Type} {t t' : Table κ} {hash : UInt32} {key : κ} {v : Value}

/-! ## Writes that keep a table packed -/

theorem Packed.overwrite (hp : Packed t) (i : Nat) (v : Value) : Packed (t.overwrite i v) := by
  refine hp.of_slots rfl (fun _ => rfl) fun j hj => ?_
  unfold Table.overwrite
  rw [slot_modifySlot]
  split
  · rename_i heq
    simpa [← heq] using hj
  · exact hj

theorem Packed.doubled (hp : Packed t) (block : Option Block) : Packed (t.doubled block) :=
  hp.of_slots rfl (fun _ => rfl) fun j hj => by rwa [slot_doubled]

/-- A chain without an empty slot is full to its end. -/
theorem isSome_of_vacancy {c i : Nat} (h : t.vacancy c = none) (hi : i ∈ t.chainSlots c) : (t.slot i).isSome := by
  have hnil := List.getLast?_eq_none_iff.1 h
  have hnot := List.filter_eq_nil_iff.1 hnil i hi
  simpa [Option.isSome_iff_ne_none] using hnot

theorem lastBucket_full {c : Nat} (h : t.vacancy c = none) : ∀ i ∈ bucketSlots (t.lastBucket c), (t.slot i).isSome :=
  fun _ hi => isSome_of_vacancy h (mem_chainSlots.2 ((mem_bucketSlots.1 hi).symm ▸ lastBucket_mem _))

theorem Packed.extend (h : Sound t) (hp : Packed t) (hroom : t.used < t.capacity)
    (hfull : t.vacancy (t.home hash) = none) :
    Packed ((t.addOverflow (t.home hash)).append (bucketSize * t.used) hash key v) := by
  have hhome := h.home_lt hash
  obtain ⟨_, g2, _⟩ := addOverflow_frame (t := t) (t.home hash)
  refine (hp.addOverflow h hhome (lastBucket_full hfull)).append ?_ hash key v
  rw [(h.toStorage.addOverflow hhome hroom).slots_size, g2]
  simp only [bucketSize]
  omega

/-- **An insertion keeps a table packed.** -/
theorem Packed.placed (h : Sound t) (hp : Packed t) (hplaced : Placed t hash key v t') :
    Packed t' ∧ t'.heads = t.heads := by
  obtain ⟨f1, _⟩ := append_frame (t := t.addOverflow (t.home hash)) (bucketSize * t.used) hash key v
  obtain ⟨g1, _⟩ := addOverflow_frame (t := t) (t.home hash)
  cases hplaced with
  | fill i hi =>
    obtain ⟨e1, _⟩ := append_frame (t := t) i hash key v
    have hsize := h.slot_lt_size (h.slot_lt (h.home_lt hash) (vacancy_eq_some hi).1)
    exact ⟨hp.append hsize hash key v, e1⟩
  | extend hi hroom => exact ⟨hp.extend h hroom hi, f1.trans g1⟩
  | doubled block hi hfull hmax =>
    have hs := (h.doubled block).1
    have hroom : (t.doubled block).used < (t.doubled block).capacity := by
      have := h.heads_pos
      have := h.heads_le
      show t.used < 2 * t.capacity
      omega
    obtain ⟨e1, _⟩ := append_frame (t := (t.doubled block).addOverflow (t.home hash)) (bucketSize * t.used) hash key v
    obtain ⟨d1, _⟩ := addOverflow_frame (t := t.doubled block) (t.home hash)
    exact ⟨(hp.doubled block).extend hs hroom ((vacancy_doubled block _).trans hi), e1.trans d1⟩

/-! ## Buckets in use -/

/-- **A packed table that is not overloaded has few overflow buckets** when a chain is full. -/
theorem Packed.used_lt (h : Sound t) (hp : Packed t) (ho : overloaded t.length t.heads = false)
    (hfull : t.vacancy (t.home hash) = none) : t.used < 2 * t.heads := by
  have hle := hp.full_le h (h.home_lt hash) (lastBucket_full hfull)
  have hheads := h.heads_le
  simp only [bucketSize] at hle
  simp only [overloaded, Bool.and_eq_false_iff, decide_eq_false_iff_not] at ho
  omega

end Table

end ValueCore
