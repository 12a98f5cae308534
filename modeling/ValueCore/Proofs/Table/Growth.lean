import ValueCore.Proofs.Table.Contents

/-!
# Rebuilding a table

`grown` puts the entries one by one into fresh storage with twice as many chains. Chains are filled from the
front there, so at every moment all buckets but the last of each chain are full (`Packed`). That bounds the
overflow buckets by the entries placed so far: when one more is needed, `used - heads + 1` buckets are full
(`Packed.full_le`), so the room that `grownCapacity` has asked for beforehand is enough for any distribution
of the hashes.
-/

namespace ValueCore.Table

variable {κ : Type} {t t' : Table κ}

/-- Every bucket that is not the last of its chain is full. -/
def Packed (t : Table κ) : Prop :=
  ∀ c < t.heads, ∀ b ∈ (t.chain c).dropLast, ∀ i ∈ bucketSlots b, (t.slot i).isSome

theorem packed_of_chain (h : ∀ c, t.chain c = [c]) : Packed t := by
  intro c _ b hb
  rw [h c] at hb
  simp at hb

theorem emptySlot_eq_some {b i : Nat} (h : t.emptySlot b = some i) : i / bucketSize = b ∧ t.slot i = none :=
  ⟨mem_bucketSlots.1 (List.mem_of_find?_eq_some h), by simpa using List.find?_some h⟩

theorem emptySlot_eq_none {b : Nat} (h : t.emptySlot b = none) : ∀ i ∈ bucketSlots b, (t.slot i).isSome :=
  fun i hi => by simpa [Option.isSome_iff_ne_none] using List.find?_eq_none.1 h i hi

theorem chain_ne_nil (c : Nat) : t.chain c ≠ [] := List.cons_ne_nil _ _

theorem dropLast_chain (c : Nat) : (t.chain c).dropLast ++ [t.lastBucket c] = t.chain c := by
  have hl : t.lastBucket c = (t.chain c).getLast (chain_ne_nil c) := by
    apply Option.some_injective
    rw [← List.getLast?_eq_some_getLast, chain, List.getLast?_cons, lastBucket, List.getLastD_eq_getLast?]
  rw [hl, List.dropLast_append_getLast]

/-- Buckets that have another one behind them. -/
def inner (t : Table κ) : List Nat := (List.range t.heads).flatMap fun c => (t.chain c).dropLast

theorem length_inner (h : Storage t) : t.inner.length + t.heads = t.used := by
  have key : ∀ n, ((List.range n).flatMap fun c => (t.chain c).dropLast).length + n =
      ((List.range n).flatMap t.chain).length := by
    intro n
    induction n with
    | zero => rfl
    | succ n ih =>
      have hn := congrArg List.length (dropLast_chain (t := t) n)
      simp only [List.length_append, List.length_singleton] at hn
      simp only [List.range_succ, List.flatMap_append, List.flatMap_singleton, List.length_append, ← ih]
      omega
  rw [inner, key, h.partition.length_eq, List.length_range]

/-- The inner buckets and the last one of a chain are different buckets. -/
theorem nodup_inner (h : Storage t) {c : Nat} (hc : c < t.heads) : (t.inner ++ [t.lastBucket c]).Nodup := by
  have hsub : t.inner.Sublist ((List.range t.heads).flatMap t.chain) := by
    have key : ∀ l : List Nat, (l.flatMap fun c => (t.chain c).dropLast).Sublist (l.flatMap t.chain) := by
      intro l
      induction l with
      | nil => exact List.Sublist.refl _
      | cons c l ih => exact (List.dropLast_sublist _).append ih
    exact key _
  refine List.nodup_append.2 ⟨h.nodup_chains.sublist hsub, by simp, fun a ha b hb heq => ?_⟩
  rw [List.mem_singleton.1 hb] at heq
  obtain ⟨d, hd, hm⟩ := List.mem_flatMap.1 ha
  have hd := List.mem_range.1 hd
  -- the last bucket of a chain lies on no other chain, and on its own one only at the end
  obtain rfl := h.chain_unique hd hc (List.dropLast_subset _ hm) (heq ▸ lastBucket_mem c)
  have hnd := (List.nodup_flatMap.1 h.nodup_chains).1 d (List.mem_range.2 hd)
  rw [← dropLast_chain] at hnd
  exact (List.nodup_append.1 hnd).2.2 a hm _ (by simp) heq

/-- A packed table with a full chain has filled all buckets but the last ones of the other chains. -/
theorem Packed.full_le (h : Sound t) (hp : Packed t) {c : Nat} (hc : c < t.heads)
    (hfull : ∀ i ∈ bucketSlots (t.lastBucket c), (t.slot i).isSome) :
    bucketSize * (t.used - t.heads + 1) ≤ t.length := by
  have hnd : ((t.inner ++ [t.lastBucket c]).flatMap bucketSlots).Nodup := by
    refine List.nodup_flatMap.2 ⟨fun b _ => nodup_bucketSlots b,
      (nodup_inner h.toStorage hc).pairwise_of_forall_ne fun a _ b _ hab => ?_⟩
    intro i hia hib
    exact hab ((mem_bucketSlots.1 hia).symm.trans (mem_bucketSlots.1 hib))
  have hsub : (t.inner ++ [t.lastBucket c]).flatMap bucketSlots ⊆ t.order := by
    intro i hi
    obtain ⟨b, hb, hib⟩ := List.mem_flatMap.1 hi
    obtain ⟨d, hd, hbd, hsome⟩ : ∃ d < t.heads, b ∈ t.chain d ∧ (t.slot i).isSome := by
      rcases List.mem_append.1 hb with hb | hb
      · obtain ⟨d, hd, hm⟩ := List.mem_flatMap.1 hb
        exact ⟨d, List.mem_range.1 hd, List.dropLast_subset _ hm, hp d (List.mem_range.1 hd) b hm i hib⟩
      · rw [List.mem_singleton] at hb
        exact ⟨c, hc, hb ▸ lastBucket_mem c, hfull i (hb ▸ hib)⟩
    obtain ⟨e, he⟩ := Option.isSome_iff_exists.1 hsome
    exact h.mem_order hd (mem_chainSlots.2 ((mem_bucketSlots.1 hib).symm ▸ hbd)) he
  have hle := (List.subperm_of_subset hnd hsub).length_le
  have hlen : ((t.inner ++ [t.lastBucket c]).flatMap bucketSlots).length =
      bucketSize * (t.inner.length + 1) := by
    rw [List.length_flatMap, List.map_congr_left fun b _ => length_bucketSlots b]
    simp [Nat.mul_comm, Nat.mul_succ]
  have hin := length_inner h.toStorage
  rw [hlen] at hle
  rw [h.length_eq]
  have : t.used - t.heads = t.inner.length := by omega
  rw [this]; exact hle

/-- The storage of a table under construction has room for another bucket when a chain is full. -/
theorem Packed.room (h : Sound t) (hp : Packed t) {n c : Nat} (hcap : t.heads + n / bucketSize < t.capacity)
    (hlen : t.length < n) (hc : c < t.heads) (hfull : ∀ i ∈ bucketSlots (t.lastBucket c), (t.slot i).isSome) :
    t.used < t.capacity := by
  have hle := hp.full_le h hc hfull
  have hheads := h.heads_le
  simp only [bucketSize] at hcap hle
  omega

/-- What putting one entry into a table under construction comes to. -/
structure Reinserted (t t' : Table κ) (e : Entry κ) : Prop where
  sound : Sound t'
  packed : Packed t'
  records_eq : t'.records = t.records ++ [(e.hash, e.key, e.value)]
  heads_eq : t'.heads = t.heads
  capacity_eq : t'.capacity = t.capacity
  holds_eq : t'.holds = t.holds
  frozen_eq : t'.frozen = t.frozen

theorem isSome_append {i j : Nat} (hi : i < t.slots.size) (hash : UInt32) (key : κ) (v : Value)
    (hj : (t.slot j).isSome) : ((t.append i hash key v).slot j).isSome := by
  rw [slot_append hi]
  split
  · rfl
  · split <;> simpa using hj

/-- With the same chains and no slot emptied a table stays packed. -/
theorem Packed.of_slots (hp : Packed t) (hheads : t'.heads = t.heads) (hchain : ∀ c, t'.chain c = t.chain c)
    (hslot : ∀ i, (t.slot i).isSome → (t'.slot i).isSome) : Packed t' := by
  intro c hc b hb i hi
  rw [hheads] at hc
  rw [hchain] at hb
  exact hslot i (hp c hc b hb i hi)

theorem Packed.append (hp : Packed t) {i : Nat} (hi : i < t.slots.size) (hash : UInt32) (key : κ) (v : Value) :
    Packed (t.append i hash key v) := by
  obtain ⟨f1, _, _, f4, _⟩ := append_frame (t := t) i hash key v
  refine hp.of_slots f1 (fun c => ?_) fun j hj => isSome_append hi hash key v hj
  simp only [chain, f4]

/-- A chain whose last bucket is full may get another one. -/
theorem Packed.addOverflow (hp : Packed t) (h : Sound t) {c : Nat} (hc : c < t.heads)
    (hfull : ∀ i ∈ bucketSlots (t.lastBucket c), (t.slot i).isSome) : Packed (t.addOverflow c) := by
  obtain ⟨g1, _⟩ := addOverflow_frame (t := t) c
  intro d hd b hb i hi
  rw [g1] at hd
  rw [chain_addOverflow h.toStorage hc] at hb
  -- what is not last in a chain now was full before, and it is not the new bucket
  have hold : b ∈ t.chain d ∧ (t.slot i).isSome := by
    by_cases hdc : d = c
    · subst hdc
      rw [if_pos rfl, List.dropLast_concat] at hb
      refine ⟨hb, ?_⟩
      rw [← dropLast_chain] at hb
      rcases List.mem_append.1 hb with hb | hb
      · exact hp d hd b hb i hi
      · exact hfull i (List.mem_singleton.1 hb ▸ hi)
    · rw [if_neg hdc, List.append_nil] at hb
      exact ⟨List.dropLast_subset _ hb, hp d hd b hb i hi⟩
  have hne : i / bucketSize ≠ t.used := by
    rw [mem_bucketSlots.1 hi]
    exact Nat.ne_of_lt (h.bucket_lt hd hold.1)
  rw [slot_addOverflow, if_neg hne]
  exact hold.2

theorem reinsert_spec (h : Sound t) (hp : Packed t) (e : Entry κ) (hhash : e.hash ≠ 0) {n : Nat}
    (hcap : t.heads + n / bucketSize < t.capacity) (hlen : t.length < n) : Reinserted t (t.reinsert e) e := by
  have hhome := h.home_lt e.hash
  cases hslot : t.emptySlot (t.lastBucket (t.home e.hash)) with
  | some i =>
    have hr : t.reinsert e = t.append i e.hash e.key e.value := by simp only [reinsert, hslot]
    rw [hr]
    obtain ⟨hib, hempty⟩ := emptySlot_eq_some hslot
    have hi : i ∈ t.chainSlots (t.home e.hash) := mem_chainSlots.2 (hib ▸ lastBucket_mem _)
    have hsize := h.slot_lt_size (h.slot_lt hhome hi)
    obtain ⟨f1, _, f3, _, _, _, f7, f8⟩ := append_frame (t := t) i e.hash e.key e.value
    exact ⟨(h.append _ _ hempty hi hhash).1, hp.append hsize _ _ _, h.records_append _ _ hempty hi hhash, f1, f3, f7, f8⟩
  | none =>
    have hr : t.reinsert e =
        (t.addOverflow (t.home e.hash)).append (bucketSize * t.used) e.hash e.key e.value := by
      simp only [reinsert, hslot]
    rw [hr]
    have hfull := emptySlot_eq_none hslot
    have hroom := hp.room h hcap hlen hhome hfull
    obtain ⟨g1, g2, _, _, _, _, g7, g8⟩ := addOverflow_frame (t := t) (t.home e.hash)
    obtain ⟨f1, _, f3, _, _, _, f7, f8⟩ := append_frame (t := t.addOverflow (t.home e.hash))
      (bucketSize * t.used) e.hash e.key e.value
    have hsize : bucketSize * t.used < (t.addOverflow (t.home e.hash)).slots.size := by
      rw [(h.toStorage.addOverflow hhome hroom).slots_size, g2]
      simp only [bucketSize]; omega
    exact ⟨(h.extend e.key e.value hroom hhash).1, (hp.addOverflow h hhome hfull).append hsize _ _ _,
      h.records_extend _ _ hroom hhash, f1.trans g1, f3.trans g2, f7.trans g7, f8.trans g8⟩

/-- Putting entries in one after the other. -/
theorem foldl_reinsert : ∀ (es : List (Entry κ)) {t : Table κ} {n : Nat}, Sound t → Packed t →
    (∀ e ∈ es, e.hash ≠ 0) → t.heads + n / bucketSize < t.capacity → t.length + es.length ≤ n →
    Sound (es.foldl reinsert t) ∧ Packed (es.foldl reinsert t) ∧
    (es.foldl reinsert t).records = t.records ++ es.map (fun e => (e.hash, e.key, e.value)) ∧
    (es.foldl reinsert t).heads = t.heads ∧ (es.foldl reinsert t).capacity = t.capacity ∧
    (es.foldl reinsert t).holds = t.holds ∧ (es.foldl reinsert t).frozen = t.frozen
  | [], t, _, h, hp, _, _, _ => ⟨h, hp, by simp, rfl, rfl, rfl, rfl⟩
  | e :: es, t, n, h, hp, hh, hcap, hlen => by
    simp only [List.length_cons] at hlen
    have r := reinsert_spec h hp e (hh e (by simp)) hcap (by omega)
    have hlen' : (t.reinsert e).length = t.length + 1 := by
      rw [← r.sound.length_records, r.records_eq, List.length_append, h.length_records]; rfl
    obtain ⟨i1, i2, i3, i4, i5, i6, i7⟩ := foldl_reinsert es r.sound r.packed (fun x hx => hh x (by simp [hx]))
      (by rw [r.heads_eq, r.capacity_eq]; exact hcap) (by omega)
    refine ⟨i1, i2, ?_, i4.trans r.heads_eq, i5.trans r.capacity_eq, i6.trans r.holds_eq,
      i7.trans r.frozen_eq⟩
    rw [List.foldl_cons, i3, r.records_eq]; simp

/-- The storage that the entries are put into. -/
def fresh (t : Table κ) (block : Option Block) : Table κ :=
  { (withStorage (2 * t.heads) t.grownCapacity block : Table κ) with holds := t.holds, frozen := t.frozen }

/-- Fresh storage is sound and packed, and there is room in it. -/
theorem Sound.fresh (h : Sound t) (hmax : t.heads < maxHeads) (block : Option Block) :
    Sound (t.fresh block) ∧ Packed (t.fresh block) ∧ (∀ e ∈ t.entries, e.hash ≠ 0) ∧
    (t.fresh block).heads + t.length / bucketSize < (t.fresh block).capacity ∧
    (t.fresh block).length + t.entries.length ≤ t.length := by
  have hcapacity : 2 * t.heads ≤ t.grownCapacity := by simp only [grownCapacity, bucketSize]; omega
  have hlen : t.entries.length = t.length := by
    rw [← h.length_records, ← entries_map_record, List.length_map]
  refine ⟨(sound_withStorage block (h.toStorage.pow_double hmax) hcapacity).flags t.holds t.frozen,
    packed_of_chain fun c => chain_withStorage (κ := κ) (2 * t.heads) t.grownCapacity block c, fun e he => ?_,
    by simp only [Table.fresh, withStorage, grownCapacity, bucketSize]; omega, by rw [hlen]; exact Nat.le_of_eq (Nat.zero_add _)⟩
  obtain ⟨i, hi, he⟩ := List.mem_filterMap.1 he
  exact (h.placed i hi e he).1

/-- **Growth keeps the invariant and every record**, with twice as many chains, all packed. -/
theorem Sound.grown (h : Sound t) (hmax : t.heads < maxHeads) (block : Option Block) :
    Sound (t.grown block) ∧ Packed (t.grown block) ∧ (t.grown block).records = t.records ∧
    (t.grown block).heads = 2 * t.heads ∧ (t.grown block).capacity = t.grownCapacity ∧
    (t.grown block).holds = t.holds ∧ (t.grown block).frozen = t.frozen := by
  obtain ⟨hs, hp, hhash, hcap, hroom⟩ := h.fresh hmax block
  obtain ⟨i1, i2, i3, i4, i5, i6, i7⟩ := foldl_reinsert t.entries hs hp hhash hcap hroom
  refine ⟨i1, i2, ?_, i4, i5, i6, i7⟩
  rw [entries_map_record, records_of_order_nil (hs.order_eq_nil rfl), List.nil_append] at i3
  exact i3

end ValueCore.Table
