import ValueCore.Proofs.Table.Packing

/-!
# How many entries are on a chain

`population` counts the live slots of a chain. A new entry adds one to the chain of its hash, and nothing else adds to
a chain. A chain that has held at most `p` entries has as many buckets as that takes, and never less than one
(`bucketsFor`). `Stretched t p` says so of every chain; it is kept when an entry is put into an empty slot of its chain
(`Stretched.fill`), when a chain without an empty slot gets another bucket for it (`Stretched.extend`), and when entries are
taken out (`Stretched.shrink`). After a rebuild the chains are as long as what is on them needs (`stretched_grown`).
-/

namespace ValueCore.Table

variable {κ : Type} {t t' : Table κ} {p : Nat → Nat} {c d i : Nat} {hash : UInt32}

/-- Live entries on a chain. -/
def population (t : Table κ) (c : Nat) : Nat := (t.chainSlots c).countP fun i => (t.slot i).isSome

/-- Buckets that a chain needs for `p` entries. -/
def bucketsFor (p : Nat) : Nat := max 1 ((p + (bucketSize - 1)) / bucketSize)

theorem length_chainSlots (c : Nat) : (t.chainSlots c).length = bucketSize * (t.chain c).length := by
  rw [chainSlots, List.length_flatMap, List.map_congr_left fun b _ => length_bucketSlots b]
  simp [Nat.mul_comm]

theorem population_le (c : Nat) : t.population c ≤ bucketSize * (t.chain c).length := by
  rw [← length_chainSlots]
  exact List.countP_le_length

theorem population_of_full (h : ∀ i ∈ t.chainSlots c, (t.slot i).isSome) :
    t.population c = bucketSize * (t.chain c).length := by
  rw [← length_chainSlots]
  exact List.countP_eq_length.2 h

theorem population_lt (hi : i ∈ t.chainSlots c) (hempty : t.slot i = none) :
    t.population c < bucketSize * (t.chain c).length := by
  refine Nat.lt_of_le_of_ne (population_le c) fun heq => ?_
  rw [← length_chainSlots] at heq
  have := List.countP_eq_length.1 heq i hi
  rw [hempty] at this
  cases this

theorem population_eq_zero (h : ∀ i ∈ t.chainSlots c, t.slot i = none) : t.population c = 0 :=
  List.countP_eq_zero.2 fun i hi => by simp [h i hi]

theorem population_congr (hchain : t'.chain c = t.chain c)
    (hslot : ∀ i ∈ t.chainSlots c, (t'.slot i).isSome = (t.slot i).isSome) :
    t'.population c = t.population c := by
  have hslots : t'.chainSlots c = t.chainSlots c := by simp only [chainSlots, hchain]
  rw [population, hslots]
  exact List.countP_congr fun i hi => by rw [hslot i hi]

theorem population_mono (hchain : t'.chain c = t.chain c) (hslot : ∀ i, (t'.slot i).isSome → (t.slot i).isSome) :
    t'.population c ≤ t.population c := by
  have hslots : t'.chainSlots c = t.chainSlots c := by simp only [chainSlots, hchain]
  rw [population, hslots]
  exact List.countP_mono_left fun i _ => hslot i

/-! ## A new entry -/

theorem slot_append_isSome (hi : i < t.slots.size) (hash : UInt32) (key : κ) (v : Value) (j : Nat) :
    ((t.append i hash key v).slot j).isSome = (decide (j = i) || (t.slot j).isSome) := by
  rw [slot_append hi]
  by_cases hj : j = i
  · simp [hj]
  · rw [if_neg hj]
    split <;> simp [hj]

theorem chain_append (i : Nat) (hash : UInt32) (key : κ) (v : Value) (c : Nat) :
    (t.append i hash key v).chain c = t.chain c := by
  obtain ⟨-, -, -, hover, -⟩ := append_frame (t := t) i hash key v
  simp only [chain, hover]

/-- **A new entry adds one to its chain** and nothing to the others. -/
theorem population_append (h : Storage t) (hc : c < t.heads) (hi : i ∈ t.chainSlots c) (hempty : t.slot i = none)
    (hd : d < t.heads) (key : κ) (v : Value) :
    (t.append i hash key v).population d = t.population d + if d = c then 1 else 0 := by
  have hsize := h.slot_lt_size (h.slot_lt hc hi)
  have hslots : (t.append i hash key v).chainSlots d = t.chainSlots d := by simp only [chainSlots, chain_append]
  rw [population, hslots]
  simp only [slot_append_isSome hsize]
  split
  case isTrue hdc =>
    subst hdc
    obtain ⟨a, b, hab⟩ := List.append_of_mem hi
    have hnd := hab ▸ h.nodup_chainSlots hd
    have hnot := (List.nodup_cons.1 (List.nodup_middle.1 hnd)).1
    have hrest : ∀ l : List Nat, i ∉ l → l.countP (fun j => decide (j = i) || (t.slot j).isSome) =
        l.countP fun j => (t.slot j).isSome := fun l hl => List.countP_congr fun j hj => by
      simp [ne_of_mem_of_not_mem hj hl]
    rw [population, hab, List.countP_append, List.countP_append, List.countP_cons, List.countP_cons,
      hrest a fun ha => hnot (List.mem_append_left _ ha), hrest b fun hb => hnot (List.mem_append_right _ hb)]
    simp [hempty]
    omega
  case isFalse hdc =>
    rw [Nat.add_zero]
    refine List.countP_congr fun j hj => ?_
    have hji : j ≠ i := fun heq => hdc (h.chain_unique hd hc (mem_chainSlots.1 (heq ▸ hj)) (mem_chainSlots.1 hi))
    simp [hji]

theorem population_addOverflow (h : Storage t) (hc : c < t.heads) (hd : d < t.heads) :
    (t.addOverflow c).population d = t.population d := by
  have hnew : ∀ i ∈ bucketSlots t.used, ((t.addOverflow c).slot i).isSome = false := fun i hi => by
    rw [slot_addOverflow, if_pos (mem_bucketSlots.1 hi)]
    rfl
  have hold : ∀ i ∈ t.chainSlots d, ((t.addOverflow c).slot i).isSome = (t.slot i).isSome := fun i hi => by
    have hlt := div_bucketSize_lt.2 (h.slot_lt hd hi)
    rw [slot_addOverflow, if_neg (by omega)]
  rw [population, chainSlots, chain_addOverflow h hc, List.flatMap_append, List.countP_append, ← chainSlots,
    List.countP_congr fun i hi => by rw [hold i hi], ← population, Nat.add_eq_left]
  split
  · rw [List.flatMap_singleton]
    exact List.countP_eq_zero.2 fun i hi => by simp [hnew i hi]
  · rfl

/-- So does one that gets another bucket. -/
theorem population_extend (h : Storage t) (hroom : t.used < t.capacity) (hd : d < t.heads) (key : κ) (v : Value) :
    ((t.addOverflow (t.home hash)).append (bucketSize * t.used) hash key v).population d =
      t.population d + if d = t.home hash then 1 else 0 := by
  have hc := h.home_lt hash
  have hdiv : bucketSize * t.used / bucketSize = t.used := Nat.mul_div_cancel_left _ (by decide)
  obtain ⟨hheads, -⟩ := addOverflow_frame (t := t) (t.home hash)
  have hempty : (t.addOverflow (t.home hash)).slot (bucketSize * t.used) = none := by
    rw [slot_addOverflow, hdiv, if_pos rfl]
  have hi : bucketSize * t.used ∈ (t.addOverflow (t.home hash)).chainSlots (t.home hash) := by
    rw [mem_chainSlots, hdiv, chain_addOverflow h hc, if_pos rfl]
    simp
  rw [population_append (h.addOverflow hc hroom) (hheads.symm ▸ hc) hi hempty (hheads.symm ▸ hd),
    population_addOverflow h hc hd]

/-! ## Chains as long as they need to be -/

/-- Every chain has the buckets that it needs for as many entries as `p` tells, and no more entries than that. -/
def Stretched (t : Table κ) (p : Nat → Nat) : Prop :=
  ∀ c < t.heads, (t.chain c).length = bucketsFor (p c) ∧ t.population c ≤ p c

/-- Where no chain is touched, and none gets entries, chains are as long as they need to be as before. -/
theorem Stretched.shrink (hf : Stretched t p) (hheads : t'.heads = t.heads) (hchain : ∀ c, t'.chain c = t.chain c)
    (hslot : ∀ i, (t'.slot i).isSome → (t.slot i).isSome) : Stretched t' fun c => max (t'.population c) (p c) := by
  intro c hc
  obtain ⟨hlen, hle⟩ := hf c (hheads ▸ hc)
  have hmono := population_mono (hchain c) hslot
  beta_reduce
  rw [Nat.max_eq_right (hmono.trans hle), hchain]
  exact ⟨hlen, hmono.trans hle⟩

/-- **An entry in an empty slot of its chain** needs no bucket. -/
theorem Stretched.fill (h : Storage t) (hf : Stretched t p) (hi : i ∈ t.chainSlots (t.home hash)) (hempty : t.slot i = none)
    (key : κ) (v : Value) :
    Stretched (t.append i hash key v) fun c => max ((t.append i hash key v).population c) (p c) := by
  intro c hc
  have hc : c < t.heads := by rwa [(append_frame (t := t) i hash key v).1] at hc
  obtain ⟨hlen, hle⟩ := hf c hc
  refine ⟨?_, Nat.le_max_left _ _⟩
  beta_reduce
  rw [chain_append, hlen, population_append h (h.home_lt hash) hi hempty hc]
  split
  case isTrue heq =>
    have hlt := population_lt (heq ▸ hi) hempty
    rw [hlen] at hlt
    simp only [bucketsFor, bucketSize] at hlt ⊢
    omega
  case isFalse => rw [Nat.add_zero, Nat.max_eq_right hle]

/-- **A full chain that gets another bucket for an entry** has never held as many. -/
theorem Stretched.extend (h : Storage t) (hf : Stretched t p) (hfull : ∀ i ∈ t.chainSlots (t.home hash), (t.slot i).isSome)
    (hroom : t.used < t.capacity) (key : κ) (v : Value) :
    Stretched ((t.addOverflow (t.home hash)).append (bucketSize * t.used) hash key v) fun c =>
      max (((t.addOverflow (t.home hash)).append (bucketSize * t.used) hash key v).population c) (p c) := by
  intro c hc
  have hc : c < t.heads := by
    rwa [(append_frame (t := t.addOverflow (t.home hash)) (bucketSize * t.used) hash key v).1,
      (addOverflow_frame (t := t) (t.home hash)).1] at hc
  obtain ⟨hlen, hle⟩ := hf c hc
  refine ⟨?_, Nat.le_max_left _ _⟩
  beta_reduce
  rw [chain_append, chain_addOverflow h (h.home_lt hash), List.length_append, hlen, population_extend h hroom hc]
  split
  case isTrue heq =>
    have hmany := population_of_full (heq ▸ hfull)
    rw [hlen] at hmany
    simp only [bucketsFor, bucketSize, List.length_singleton] at hmany ⊢
    omega
  case isFalse => rw [List.length_nil, Nat.add_zero, Nat.add_zero, Nat.max_eq_right hle]

/-! ## Rebuilding -/

theorem stretched_of_vacant (hchain : ∀ c < t.heads, t.chain c = [c])
    (hslot : ∀ c < t.heads, ∀ i ∈ t.chainSlots c, t.slot i = none) : Stretched t t.population := by
  intro c hc
  rw [hchain c hc, population_eq_zero (hslot c hc)]
  exact ⟨rfl, Nat.le_refl 0⟩

theorem stretched_withStorage (heads capacity : Nat) (block : Option Block) :
    Stretched (withStorage heads capacity block : Table κ) (withStorage heads capacity block : Table κ).population :=
  stretched_of_vacant (fun c _ => chain_withStorage heads capacity block c) fun _ _ i _ =>
    slot_withStorage heads capacity block i

theorem stretched_resized (heads : Nat) (block : Option Block) :
    Stretched (t.resized heads block) (t.resized heads block).population :=
  stretched_withStorage (κ := κ) heads heads block

/-- Without entries nothing is on the chains. -/
theorem stretched_cleared (h : Sound t) : Stretched t.cleared t.cleared.population := by
  obtain ⟨hs, ho⟩ := h.cleared
  refine stretched_of_vacant (fun c _ => ?_) fun c hc i hi => ?_
  · simp only [chain, Table.cleared, Array.getD_eq_getD_getElem?, Array.getElem?_replicate]
    split <;> rfl
  · rw [← Option.not_isSome_iff_eq_none]
    intro hsome
    have hlive := (hs.live i).2 ⟨hs.slot_lt hc hi, hsome⟩
    rw [ho] at hlive
    cases hlive

/-- Chains that never held more than they do now are as long as that needs. -/
theorem Stretched.now (hf : Stretched t fun c => max (t.population c) (p c)) (hle : ∀ c < t.heads, p c ≤ t.population c) :
    Stretched t t.population := by
  intro c hc
  have h := hf c hc
  beta_reduce at h
  rwa [Nat.max_eq_left (hle c hc)] at h

/-- Chains that are filled from the front have no bucket to spare. -/
theorem Stretched.reinsert (h : Sound t) (hp : Packed t) (hf : Stretched t t.population) (e : Entry κ) {n : Nat}
    (hcap : t.heads + n / bucketSize < t.capacity) (hlen : t.length < n) :
    Stretched (t.reinsert e) (t.reinsert e).population := by
  have hhome := h.home_lt e.hash
  cases hslot : t.emptySlot (t.lastBucket (t.home e.hash)) with
  | some i =>
    have hr : t.reinsert e = t.append i e.hash e.key e.value := by simp only [Table.reinsert, hslot]
    obtain ⟨hib, hempty⟩ := emptySlot_eq_some hslot
    have hi : i ∈ t.chainSlots (t.home e.hash) := mem_chainSlots.2 (hib ▸ lastBucket_mem _)
    rw [hr]
    refine (hf.fill h.toStorage hi hempty e.key e.value).now fun c hc => ?_
    rw [(append_frame (t := t) i e.hash e.key e.value).1] at hc
    rw [population_append h.toStorage hhome hi hempty hc]
    exact Nat.le_add_right _ _
  | none =>
    have hr : t.reinsert e = (t.addOverflow (t.home e.hash)).append (bucketSize * t.used) e.hash e.key e.value := by
      simp only [Table.reinsert, hslot]
    have hlast := emptySlot_eq_none hslot
    have hfull : ∀ i ∈ t.chainSlots (t.home e.hash), (t.slot i).isSome := fun i hi => by
      have hb := mem_chainSlots.1 hi
      rw [← dropLast_chain] at hb
      rcases List.mem_append.1 hb with hb | hb
      · exact hp _ hhome _ hb i (mem_bucketSlots.2 rfl)
      · exact hlast i (mem_bucketSlots.2 (List.mem_singleton.1 hb))
    have hroom := hp.room h hcap hlen hhome hlast
    rw [hr]
    refine (hf.extend h.toStorage hfull hroom e.key e.value).now fun c hc => ?_
    rw [(append_frame (t := t.addOverflow (t.home e.hash)) (bucketSize * t.used) e.hash e.key e.value).1,
      (addOverflow_frame (t := t) (t.home e.hash)).1] at hc
    rw [population_extend h.toStorage hroom hc]
    exact Nat.le_add_right _ _

theorem stretched_foldl_reinsert : ∀ (es : List (Entry κ)) {t : Table κ} {n : Nat}, Sound t → Packed t →
    Stretched t t.population → (∀ e ∈ es, e.hash ≠ 0) → t.heads + n / bucketSize < t.capacity → t.length + es.length ≤ n →
    Stretched (es.foldl reinsert t) (es.foldl reinsert t).population
  | [], _, _, _, _, hf, _, _, _ => hf
  | e :: es, t, n, h, hp, hf, hh, hcap, hlen => by
    simp only [List.length_cons] at hlen
    have r := reinsert_spec h hp e (hh e (by simp)) hcap (by omega)
    have hlen' : (t.reinsert e).length = t.length + 1 := by
      rw [← r.sound.length_records, r.records_eq, List.length_append, h.length_records]; rfl
    exact stretched_foldl_reinsert es r.sound r.packed (hf.reinsert h hp e hcap (by omega))
      (fun x hx => hh x (by simp [hx])) (by rw [r.heads_eq, r.capacity_eq]; exact hcap) (by omega)

/-- **After growth no chain has a bucket to spare.** -/
theorem stretched_grown (h : Sound t) (hmax : t.heads < maxHeads) (block : Option Block) :
    Stretched (t.grown block) (t.grown block).population := by
  obtain ⟨hs, hp, hhash, hcap, hroom⟩ := h.fresh hmax block
  exact stretched_foldl_reinsert t.entries hs hp
    (stretched_withStorage (κ := κ) (2 * t.heads) t.grownCapacity block) hhash hcap hroom

/-! ## Buckets in use -/

/-- The buckets in use are those of the chains. -/
theorem Storage.used_eq (h : Storage t) : t.used = ((List.range t.heads).map fun c => (t.chain c).length).sum := by
  rw [← List.length_flatMap, h.partition.length_eq, List.length_range]

end ValueCore.Table
