import Mathlib.Tactic.Ring
import ValueCore.Proofs.Table.Writes

/-!
# The buckets of a table

Making storage, doubling it, handing one more bucket to a chain and giving overflow buckets up: these writes
change no entry, or drop them all. A fresh bucket is empty in all its slots, whatever an earlier life of the
table left in it, and its first slot is where the entry goes for whose sake it was opened (`Sound.extend`).
-/

namespace ValueCore.Table

variable {κ : Type} {t : Table κ}

/-! ## Sizing -/

/-- The chosen number of chains is a power of two that is not overloaded. -/
theorem headsFrom_eq_some : ∀ {fuel heads hint n : Nat}, headsFrom hint fuel heads = some n →
    (∃ k ≤ fuel, n = heads * 2 ^ k) ∧ overloaded hint n = false
  | 0, heads, hint, n, h => by
    unfold headsFrom at h
    split at h
    · cases h
    · rename_i ho
      cases h; exact ⟨⟨0, Nat.le_refl 0, by simp⟩, by simpa using ho⟩
  | fuel + 1, heads, hint, n, h => by
    unfold headsFrom at h
    split at h
    · obtain ⟨⟨k, hk, rfl⟩, ho⟩ := headsFrom_eq_some h
      exact ⟨⟨k + 1, by omega, by rw [Nat.pow_succ]; ring⟩, ho⟩
    · rename_i ho
      cases h; exact ⟨⟨0, Nat.zero_le _, by simp⟩, by simpa using ho⟩

theorem headsFor_pow {hint n : Nat} (h : headsFor hint = some n) : ∃ k ≤ 24, n = 2 ^ k := by
  obtain ⟨⟨k, hk, rfl⟩, _⟩ := headsFrom_eq_some h
  exact ⟨k, hk, by simp⟩

theorem le_maxHeads {heads : Nat} (hp : ∃ k ≤ 24, heads = 2 ^ k) : heads ≤ maxHeads := by
  obtain ⟨k, hk, rfl⟩ := hp
  exact Nat.pow_le_pow_right (by decide) hk

/-! ## New storage -/

theorem slot_withStorage (heads capacity : Nat) (block : Option Block) (i : Nat) :
    (withStorage heads capacity block : Table κ).slot i = none := by
  simp only [slot, withStorage, Array.getElem?_replicate]
  split <;> rfl

theorem chain_withStorage (heads capacity : Nat) (block : Option Block) (c : Nat) :
    (withStorage heads capacity block : Table κ).chain c = [c] := by
  simp only [chain, withStorage, Array.getD_eq_getD_getElem?, Array.getElem?_replicate]
  split <;> rfl

theorem withStorage_storage {heads capacity : Nat} (block : Option Block) (hp : ∃ k ≤ 24, heads = 2 ^ k)
    (hc : heads ≤ capacity) : Storage (withStorage heads capacity block : Table κ) := by
  refine ⟨hp, hc, by simp [withStorage], by simp [withStorage], ?_⟩
  have hchain : (withStorage heads capacity block : Table κ).chain = fun c => [c] :=
    funext fun c => chain_withStorage heads capacity block c
  rw [hchain, List.flatMap_singleton']
  exact List.Perm.refl _

/-- A table without a live slot and without ends is ordered, having nothing to order. -/
theorem ordered_nil (hfirst : t.first = none) (hlast : t.last = none) (hlength : t.length = 0)
    (hslot : ∀ i < bucketSize * t.used, t.slot i = none) : Ordered t [] := by
  refine ⟨trivial, hfirst, hlast, hlength, List.nodup_nil, fun i => ⟨by simp, fun ⟨hi, hs⟩ => ?_⟩, by simp⟩
  simp [hslot i hi] at hs

theorem sound_withStorage {heads capacity : Nat} (block : Option Block) (hp : ∃ k ≤ 24, heads = 2 ^ k)
    (hc : heads ≤ capacity) : Sound (withStorage heads capacity block : Table κ) :=
  (withStorage_storage block hp hc).sound (ordered_nil rfl rfl rfl fun i _ => slot_withStorage _ _ _ i)

theorem sound_empty : Sound (empty : Table κ) := sound_withStorage none ⟨0, by simp⟩ (Nat.le_refl 1)

/-- Sizing a table that has no entries. -/
theorem sound_resized {heads : Nat} (block : Option Block) (hp : ∃ k ≤ 24, heads = 2 ^ k)
    (hlen : t.length = 0) : Sound (t.resized heads block) ∧ (t.resized heads block).order = [] := by
  have hs : Storage (t.resized heads block) :=
    (withStorage_storage (κ := κ) block hp (Nat.le_refl heads)).congr rfl rfl rfl rfl rfl
  have ho : Ordered (t.resized heads block) [] :=
    ordered_nil rfl rfl hlen fun i _ => slot_withStorage heads heads block i
  exact ⟨hs.sound ho, ho.order_eq⟩

/-! ## `doubled` -/

theorem slot_doubled (block : Option Block) (i : Nat) : (t.doubled block).slot i = t.slot i := by
  simp only [slot, doubled, Array.getElem?_append]
  by_cases hi : i < t.slots.size
  · rw [if_pos hi]
  · rw [if_neg hi, (Array.getElem?_eq_none (Nat.le_of_not_lt hi) : t.slots[i]? = none), Array.getElem?_replicate]
    split <;> rfl

theorem Sound.doubled (h : Sound t) (block : Option Block) :
    Sound (t.doubled block) ∧ (t.doubled block).order = t.order := by
  have hs : Storage (t.doubled block) := by
    refine ⟨h.heads_pow, ?_, ?_, h.overflow_size, h.partition⟩
    · have := h.used_le; simp only [Table.doubled]; omega
    · simp only [Table.doubled, Array.size_append, h.slots_size, Array.size_replicate, bucketSize]; omega
  have ho : Ordered (t.doubled block) t.order :=
    h.toOrdered.congr rfl rfl rfl rfl rfl rfl (fun i => by simp only [links, slot_doubled])
      fun i => by rw [slot_doubled]
  exact ⟨hs.sound ho, ho.order_eq⟩

/-! ## `addOverflow` -/

theorem slot_addOverflow (head i : Nat) :
    (t.addOverflow head).slot i = if i / bucketSize = t.used then none else t.slot i := by
  simp only [slot, addOverflow, resetBucket, getElem?_foldl_empty, mem_bucketSlots]

theorem chain_addOverflow (h : Storage t) {head : Nat} (hh : head < t.heads) (c : Nat) :
    (t.addOverflow head).chain c = t.chain c ++ if c = head then [t.used] else [] := by
  simp only [chain, addOverflow, resetBucket, Array.getD_eq_getD_getElem?, Array.getElem?_modify]
  by_cases hc : c = head
  · subst hc
    have hlt : c < t.overflow.size := h.overflow_size ▸ hh
    simp [hlt]
  · simp [hc, Ne.symm hc]

/-- The parts of a table that another overflow bucket leaves alone. -/
theorem addOverflow_frame (head : Nat) :
    (t.addOverflow head).heads = t.heads ∧ (t.addOverflow head).capacity = t.capacity ∧
    (t.addOverflow head).first = t.first ∧ (t.addOverflow head).last = t.last ∧
    (t.addOverflow head).length = t.length ∧ (t.addOverflow head).used = t.used + 1 ∧
    (t.addOverflow head).holds = t.holds ∧ (t.addOverflow head).frozen = t.frozen := by
  simp only [addOverflow, resetBucket, and_self]

theorem Storage.addOverflow (h : Storage t) {head : Nat} (hh : head < t.heads) (hroom : t.used < t.capacity) :
    Storage (t.addOverflow head) := by
  obtain ⟨e1, e2, _, _, _, e6, _⟩ := addOverflow_frame (t := t) head
  refine ⟨by rw [e1]; exact h.heads_pow, by rw [e2, e6]; exact hroom, ?_, ?_, ?_⟩
  · simp [Table.addOverflow, resetBucket, size_foldl_empty, h.slots_size]
  · simp [Table.addOverflow, resetBucket, h.overflow_size]
  · -- one chain is longer by the bucket that is now in use
    have hone : (List.range t.heads).flatMap (fun c => if c = head then [t.used] else []) = [t.used] := by
      have key : ∀ {l : List Nat}, l.Nodup → head ∈ l →
          l.flatMap (fun c => if c = head then [t.used] else []) = [t.used] := by
        intro l hn hm
        obtain ⟨a, b, rfl⟩ := List.append_of_mem hm
        have hnd := List.nodup_cons.1 (List.nodup_middle.1 hn)
        have hnil : ∀ c : List Nat, head ∉ c → c.flatMap (fun c => if c = head then [t.used] else []) = [] :=
          fun c hc => List.flatMap_eq_nil_iff.2 fun x hx => if_neg (ne_of_mem_of_not_mem hx hc)
        have ha := hnil a fun hx => hnd.1 (List.mem_append_left _ hx)
        have hb := hnil b fun hx => hnd.1 (List.mem_append_right _ hx)
        simp [List.flatMap_append, List.flatMap_cons, ha, hb]
      exact key List.nodup_range (List.mem_range.2 hh)
    have hp := List.flatMap_append_perm (List.range t.heads) t.chain
      (fun c => if c = head then [t.used] else [])
    rw [hone] at hp
    have hchain : (t.addOverflow head).chain = fun c => t.chain c ++ if c = head then [t.used] else [] :=
      funext fun c => chain_addOverflow h hh c
    rw [hchain, e1, e6, List.range_succ]
    exact hp.symm.trans (h.partition.append_right _)

theorem Ordered.addOverflow {is : List Nat} (hs : Storage t) (h : Ordered t is) {head : Nat}
    (hh : head < t.heads) : Ordered (t.addOverflow head) is := by
  have hslot : ∀ i ∈ is, (t.addOverflow head).slot i = t.slot i := fun i hi => by
    have := div_bucketSize_lt.2 ((h.live i).1 hi).1
    rw [slot_addOverflow, if_neg (by omega)]
  obtain ⟨e1, _, e3, e4, e5, e6, _⟩ := addOverflow_frame (t := t) head
  refine ⟨(linked_congr fun i hi => by simp only [links, hslot i hi]).2 h.linked,
    by rw [e3, h.first_eq], by rw [e4, h.last_eq], by rw [e5, h.length_eq], h.nodup, fun i => ?_,
    fun i hi e he => ?_⟩
  · rw [e6, ← div_bucketSize_lt, slot_addOverflow, h.live, ← div_bucketSize_lt]
    by_cases hi : i / bucketSize = t.used
    · simp [hi]
    · simp only [hi, if_false]
      constructor <;> rintro ⟨h1, h2⟩ <;> exact ⟨by omega, h2⟩
  · rw [hslot i hi] at he
    obtain ⟨h1, h2⟩ := h.placed i hi e he
    refine ⟨h1, mem_chainSlots.2 ?_⟩
    rw [chain_addOverflow hs hh, home, e1]
    exact List.mem_append_left _ (mem_chainSlots.1 h2)

/-- **A new entry in a new overflow bucket.** -/
theorem Sound.extend (h : Sound t) {hash : UInt32} (key : κ) (v : Value) (hroom : t.used < t.capacity)
    (hhash : hash ≠ 0) :
    Sound ((t.addOverflow (t.home hash)).append (bucketSize * t.used) hash key v) ∧
    ((t.addOverflow (t.home hash)).append (bucketSize * t.used) hash key v).order =
      t.order ++ [bucketSize * t.used] := by
  have hh := h.home_lt hash
  have hs := h.toStorage.addOverflow hh hroom
  have ho := h.toOrdered.addOverflow h.toStorage hh
  have hdiv : bucketSize * t.used / bucketSize = t.used := Nat.mul_div_cancel_left _ (by decide)
  have hempty : (t.addOverflow (t.home hash)).slot (bucketSize * t.used) = none := by
    rw [slot_addOverflow, hdiv, if_pos rfl]
  have hi : bucketSize * t.used ∈
      (t.addOverflow (t.home hash)).chainSlots ((t.addOverflow (t.home hash)).home hash) := by
    have hhome : (t.addOverflow (t.home hash)).home hash = t.home hash := by
      rw [home, (addOverflow_frame (t := t) _).1, home]
    rw [mem_chainSlots, hdiv, hhome, chain_addOverflow h.toStorage hh, if_pos rfl]
    simp
  have ha := ho.append hs key v hempty hi hhash
  exact ⟨(hs.append _ _ _ _).sound ha, ha.order_eq⟩

/-! ## `cleared` -/

theorem Sound.cleared (h : Sound t) : Sound t.cleared ∧ t.cleared.order = [] := by
  have hs : Storage t.cleared := by
    refine ⟨h.heads_pow, Nat.le_trans h.heads_le h.used_le, ?_, by simp [Table.cleared], ?_⟩
    · simp [Table.cleared, size_foldl_empty, h.slots_size]
    · have hchain : t.cleared.chain = fun c => [c] := funext fun c => by
        simp only [chain, Table.cleared, Array.getD_eq_getD_getElem?, Array.getElem?_replicate]
        split <;> rfl
      rw [hchain, List.flatMap_singleton']
      exact List.Perm.refl _
  have ho : Ordered t.cleared [] := by
    refine ordered_nil rfl rfl rfl fun i hi => ?_
    have hm : i ∈ List.range (bucketSize * t.heads) := List.mem_range.2 hi
    simp only [slot, Table.cleared, getElem?_foldl_empty, hm, if_true]
  exact ⟨hs.sound ho, ho.order_eq⟩

end ValueCore.Table
