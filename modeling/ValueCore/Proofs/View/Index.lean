import ValueCore.View.Basic
import ValueCore.Proofs.Table.Buckets

/-!
# The index of a view

The index records positions of entries in chained buckets. `Indexed v n` says that it is in order and records the first
`n` entries, those and no others.

* The buckets are in order as those of a table are (`View.buckets`).
* The slots of a chain are filled from the front, with the positions of the entries whose hashes select the chain, in
  ascending order (`View.recorded`); after them all slots are empty.
* A bucket is added to a chain only when all others are full. So there are no more than `heads + n / 8` buckets in use
  (`Indexed.used_le`), however the hashes are distributed.

Recording one more position keeps this up if there is room for a bucket (`Indexed.place`). The entries themselves are
nothing to the index apart from their hashes.
-/

namespace ValueCore.View

open Table (bucketSlots mem_bucketSlots)

variable {v v' : View} {n : Nat}

/-- The buckets of a view, as those of a table without entries. -/
def buckets (v : View) : Table Unit :=
  { (Table.withStorage v.heads v.capacity none : Table Unit) with
    used := v.used, slots := v.slots.map fun _ => none, overflow := v.overflow }

/-- The slots of a chain, in order. -/
def chainSlots (v : View) (c : Nat) : List Nat := v.buckets.chainSlots c

/-- Hash of the entry at a position. -/
def hashAt (v : View) (p : Nat) : UInt32 := (v.entries[p]?.map (·.hash)).getD 0

/-- Those of the first `n` positions whose entries belong to a chain. -/
def recorded (v : View) (n c : Nat) : List Nat := (List.range n).filter fun p => v.home (v.hashAt p) = c

/-- The index records the first `n` entries. -/
structure Indexed (v : View) (n : Nat) : Prop where
  storage : Table.Storage v.buckets
  filled : ∀ c < v.heads, ∃ k, (v.chainSlots c).map v.slot = (v.recorded n c).map some ++ List.replicate k none
  tight : ∀ c < v.heads, bucketSize * (v.overflow.getD c []).length ≤ (v.recorded n c).length

theorem Indexed.slots_size (h : Indexed v n) : v.slots.size = bucketSize * v.capacity := by
  simpa [buckets, Table.withStorage] using h.storage.slots_size

/-! ## What is recorded -/

theorem recorded_congr (he : v'.entries = v.entries) (hh : v'.heads = v.heads) (n c : Nat) :
    v'.recorded n c = v.recorded n c := by
  have hhome : ∀ p, v'.home (v'.hashAt p) = v.home (v.hashAt p) := fun p => by simp only [hashAt, home, he, hh]
  exact List.filter_congr fun p _ => by rw [hhome]

theorem recorded_succ (n c : Nat) :
    v.recorded (n + 1) c = v.recorded n c ++ if v.home (v.hashAt n) = c then [n] else [] := by
  rw [recorded, List.range_succ, List.filter_append, List.filter_singleton]
  by_cases h : v.home (v.hashAt n) = c <;> simp [h, recorded]

theorem mem_recorded {c p : Nat} : p ∈ v.recorded n c ↔ p < n ∧ v.home (v.hashAt p) = c := by simp [recorded]

/-- No position is recorded twice. -/
theorem length_recorded_le (v : View) (n m : Nat) : ((List.range m).flatMap (v.recorded n)).length ≤ n := by
  have hnd : ((List.range m).flatMap (v.recorded n)).Nodup := by
    refine List.nodup_flatMap.2 ⟨fun c _ => List.nodup_range.filter _, ?_⟩
    refine (List.nodup_range (n := m)).imp fun {c d} hcd => ?_
    intro p hc hd
    exact hcd ((mem_recorded.1 hc).2.symm.trans (mem_recorded.1 hd).2)
  have hsub : (List.range m).flatMap (v.recorded n) ⊆ List.range n := by
    intro p hp
    obtain ⟨c, _, hm⟩ := List.mem_flatMap.1 hp
    exact List.mem_range.2 (mem_recorded.1 hm).1
  have hle := (List.subperm_of_subset hnd hsub).length_le
  rwa [List.length_range] at hle

/-- **There are no more buckets in use than full ones and one for each chain.** -/
theorem Indexed.used_le (h : Indexed v n) : bucketSize * v.used ≤ bucketSize * v.heads + n := by
  have key : ∀ m ≤ v.heads, bucketSize * ((List.range m).flatMap v.chain).length ≤
      bucketSize * m + ((List.range m).flatMap (v.recorded n)).length := by
    intro m hm
    induction m with
    | zero => simp
    | succ m ih =>
      have hchain : (v.chain m).length = (v.overflow.getD m []).length + 1 := rfl
      have htight := h.tight m hm
      have ih := ih (by omega)
      simp only [List.range_succ, List.flatMap_append, List.flatMap_singleton, List.length_append]
      simp only [bucketSize] at *
      omega
  have hused : ((List.range v.heads).flatMap v.chain).length = v.used := by
    have hperm : ((List.range v.heads).flatMap v.chain).Perm (List.range v.used) := h.storage.partition
    rw [hperm.length_eq, List.length_range]
  have hall := key v.heads (Nat.le_refl _)
  rw [hused] at hall
  exact Nat.le_trans hall (Nat.add_le_add_left (length_recorded_le v n v.heads) _)

/-- So there is another bucket if there is one for each chain, one for every eight entries, and one more. -/
theorem Indexed.used_lt (h : Indexed v n) (hroom : bucketSize * v.heads + n < bucketSize * v.capacity) :
    v.used < v.capacity := by
  have hused := h.used_le
  simp only [bucketSize] at *
  omega

/-! ## Positions of a chain -/

/-- Reading bucket by bucket up to the first empty slot misses nothing. -/
theorem flatMap_takeWhile_isSome : ∀ (bs : List (List (Option Nat))) (ps : List Nat) (k : Nat),
    bs.flatten = ps.map some ++ List.replicate k none →
      bs.flatMap (fun b => (b.takeWhile Option.isSome).filterMap id) = ps
  | [], ps, k, h => by
    have hnil := (List.append_eq_nil_iff.1 (by simpa using h.symm : ps.map some ++ List.replicate k none = [])).1
    simpa using (List.map_eq_nil_iff.1 hnil).symm
  | b :: bs, ps, k, h => by
    rw [List.flatten_cons] at h
    have htake : ∀ (qs : List Nat) (rest : List (Option Nat)),
        ((qs.map some ++ rest).takeWhile Option.isSome).filterMap id =
          qs ++ (rest.takeWhile Option.isSome).filterMap id := by
      intro qs rest
      rw [List.takeWhile_append_of_pos (by simp), List.filterMap_append]
      simp
    rw [List.flatMap_cons]
    rcases List.append_eq_append_iff.1 h with ⟨c, hps, hbs⟩ | ⟨c, hb, hnone⟩
    · -- the bucket is full
      obtain ⟨qs, rs, rfl, rfl, rfl⟩ := List.map_eq_append_iff.1 hps
      have hfull := htake qs []
      rw [List.append_nil] at hfull
      rw [flatMap_takeWhile_isSome bs rs k hbs, hfull]
      simp
    · -- the bucket is the last one that has something
      obtain ⟨_, hc, hrest⟩ := List.replicate_eq_append_iff.1 hnone
      rw [flatMap_takeWhile_isSome bs [] bs.flatten.length (by simpa using hrest), hb, htake, hc]
      cases c.length <;> simp [List.replicate_succ]

/-- **A chain records the positions of its entries.** -/
theorem Indexed.chainPositions_eq (h : Indexed v n) {c : Nat} (hc : c < v.heads) :
    v.chainPositions c = v.recorded n c := by
  obtain ⟨k, hk⟩ := h.filled c hc
  have hflat : ((v.chain c).map fun b => (bucketSlots b).map v.slot).flatten =
      (v.recorded n c).map some ++ List.replicate k none := by
    rw [← hk, chainSlots, Table.chainSlots, List.map_flatMap, List.flatMap_def]
    rfl
  have hall := flatMap_takeWhile_isSome _ _ _ hflat
  rw [List.flatMap_map] at hall
  exact hall

/-! ## Recording one more -/

/-- The parts of a view that recording a position leaves alone. -/
theorem place_frame (v : View) (hash : UInt32) (p : Nat) :
    (v.place hash p).entries = v.entries ∧ (v.place hash p).heads = v.heads ∧
    (v.place hash p).capacity = v.capacity ∧ (v.place hash p).entryCapacity = v.entryCapacity := by
  unfold place
  dsimp only
  split <;> exact ⟨rfl, rfl, rfl, rfl⟩

/-- Only the slot that is written changes. -/
theorem slot_set {i p j : Nat} (hi : i < v.slots.size) :
    ({ v with slots := v.slots.setIfInBounds i (some p) } : View).slot j = if j = i then some p else v.slot j := by
  simp only [slot, Table.getElem?_setIfInBounds_join j _ hi]

/-- Up to the first empty slot all slots are filled, and behind it none is. -/
theorem filled_of_first_empty : ∀ {a b : List (Option Nat)} {ps : List Nat} {k : Nat}, (∀ x ∈ a, x.isSome) →
    a ++ none :: b = ps.map some ++ List.replicate k none → a = ps.map some ∧ none :: b = List.replicate k none
  | [], _, [], _, _, h => ⟨rfl, h⟩
  | [], _, p :: _, _, _, h => by simp at h
  | x :: a, b, [], k, ha, h => by
    have hx : x ∈ List.replicate k none := by
      have hmem : x ∈ x :: a ++ none :: b := by simp
      simpa [h] using hmem
    have hnone := List.eq_of_mem_replicate hx
    have hsome := ha x List.mem_cons_self
    simp [hnone] at hsome
  | x :: a, b, p :: ps, k, ha, h => by
    simp only [List.cons_append, List.map_cons, List.cons.injEq] at h
    obtain ⟨hx, hrest⟩ := h
    obtain ⟨hfull, hnone⟩ := filled_of_first_empty (fun y hy => ha y (List.mem_cons_of_mem _ hy)) hrest
    exact ⟨by rw [hx, hfull, List.map_cons], hnone⟩

/-- Recording a position in the first empty slot of its chain. -/
theorem Indexed.place_slot (h : Indexed v n) {c i : Nat} (hc : v.home (v.hashAt n) = c)
    (hi : (v.chainSlots c).find? (fun i => (v.slot i).isNone) = some i) :
    Indexed { v with slots := v.slots.setIfInBounds i (some n) } (n + 1) := by
  have hlt : c < v.heads := hc ▸ h.storage.home_lt _
  obtain ⟨hempty, a, b, hab, hfull⟩ := List.find?_eq_some_iff_append.1 hi
  have hmem : i ∈ v.chainSlots c := List.mem_of_find?_eq_some hi
  have hsize : i < v.slots.size := by
    have := h.storage.slot_lt_size (h.storage.slot_lt hlt hmem)
    simpa [buckets] using this
  have hslot := fun j => slot_set (v := v) (p := n) (j := j) hsize
  refine ⟨h.storage.congr rfl rfl rfl (by simp [buckets]) rfl, fun d hd => ?_, fun d hd => ?_⟩
  · show ∃ k, (v.chainSlots d).map _ = List.map some (v.recorded (n + 1) d) ++ List.replicate k none
    obtain ⟨k, hk⟩ := h.filled d hd
    rw [recorded_succ]
    by_cases hdc : d = c
    · subst hdc
      have hnd := h.storage.nodup_chainSlots hd
      rw [show v.buckets.chainSlots d = a ++ i :: b from hab, List.nodup_middle, List.nodup_cons] at hnd
      have hnot : ∀ {l : List Nat}, (∀ j ∈ l, j ∈ a ++ b) →
          l.map ({ v with slots := v.slots.setIfInBounds i (some n) } : View).slot = l.map v.slot := fun hl =>
        List.map_congr_left fun j hj => by rw [hslot, if_neg (ne_of_mem_of_not_mem (hl j hj) hnd.1)]
      rw [hab, List.map_append, List.map_cons, Option.isNone_iff_eq_none.1 hempty] at hk
      have hsome : ∀ x ∈ a.map v.slot, x.isSome := fun x hx => by
        obtain ⟨j, hj, rfl⟩ := List.mem_map.1 hx
        simpa [Option.isSome_iff_ne_none] using hfull j hj
      obtain ⟨ha, hrest⟩ := filled_of_first_empty hsome hk
      obtain ⟨k, rfl⟩ : ∃ k', k = k' + 1 := ⟨k - 1, by have := congrArg List.length hrest; simp at this; omega⟩
      rw [List.replicate_succ, List.cons.injEq] at hrest
      refine ⟨k, ?_⟩
      rw [hab, List.map_append, List.map_cons, hnot fun j hj => List.mem_append_left b hj,
        hnot fun j hj => List.mem_append_right a hj, hslot, if_pos rfl, ha, hrest.2, if_pos hc]
      simp
    · refine ⟨k, ?_⟩
      rw [if_neg fun hcd => hdc (hcd.symm.trans hc), List.append_nil, ← hk]
      refine List.map_congr_left fun j hj => ?_
      rw [hslot, if_neg]
      rintro rfl
      exact hdc (h.storage.chain_unique hd hlt (Table.mem_chainSlots.1 hj) (Table.mem_chainSlots.1 hmem))
  · show bucketSize * (v.overflow.getD d []).length ≤ (v.recorded (n + 1) d).length
    rw [recorded_succ, List.length_append]
    exact Nat.le_trans (h.tight d hd) (Nat.le_add_right _ _)

/-- A bucket is added to a chain, with a position in its first slot. -/
def extended (v : View) (c p : Nat) : View :=
  { v with
    used := v.used + 1
    slots := ((bucketSlots v.used).foldl (fun s i => s.setIfInBounds i none) v.slots).setIfInBounds (bucketSize * v.used)
      (some p)
    overflow := v.overflow.modify c (· ++ [v.used]) }

theorem slot_extended {c p : Nat} (h : bucketSize * v.used < v.slots.size) (j : Nat) :
    (v.extended c p).slot j =
      if j = bucketSize * v.used then some p else if j / bucketSize = v.used then none else v.slot j := by
  simp only [slot, extended]
  rw [Table.getElem?_setIfInBounds_join j _ (by rw [Table.size_foldl_empty]; exact h), Table.getElem?_foldl_empty]
  simp only [mem_bucketSlots]

theorem chain_extended (h : Table.Storage v.buckets) {c : Nat} (hc : c < v.heads) (p d : Nat) :
    (v.extended c p).chain d = v.chain d ++ if d = c then [v.used] else [] := Table.chain_addOverflow h hc d

theorem chainSlots_extended (h : Table.Storage v.buckets) {c : Nat} (hc : c < v.heads) (p d : Nat) :
    (v.extended c p).chainSlots d = v.chainSlots d ++ if d = c then bucketSlots v.used else [] := by
  show ((v.extended c p).chain d).flatMap bucketSlots = (v.chain d).flatMap bucketSlots ++ _
  rw [chain_extended h hc, List.flatMap_append]
  split <;> simp

theorem length_overflow_extended (h : Table.Storage v.buckets) {c : Nat} (hc : c < v.heads) (p d : Nat) :
    ((v.extended c p).overflow.getD d []).length = (v.overflow.getD d []).length + if d = c then 1 else 0 := by
  have hlen := congrArg List.length (chain_extended h hc p d)
  simp only [chain, List.length_append, List.length_cons] at hlen
  split at hlen <;> simp_all

/-- What is in the new bucket. -/
theorem slots_of_new_bucket (h : bucketSize * v.used < v.slots.size) (c p : Nat) :
    (bucketSlots v.used).map (v.extended c p).slot = some p :: List.replicate 7 none := by
  have hlist : bucketSlots v.used = bucketSize * v.used :: (List.range 7).map (bucketSize * v.used + 1 + ·) := by
    simp [Table.bucketSlots, bucketSize, List.range_succ, Nat.add_assoc]
  rw [hlist, List.map_cons, slot_extended h, if_pos rfl, List.map_map]
  refine congrArg _ (List.eq_replicate_iff.2 ⟨by simp, fun x hx => ?_⟩)
  obtain ⟨j, hj, rfl⟩ := List.mem_map.1 hx
  have hj := List.mem_range.1 hj
  simp only [Function.comp_apply, slot_extended h]
  rw [if_neg (by simp only [bucketSize]; omega), if_pos (by simp only [bucketSize]; omega)]

/-- A chain without an empty slot records as many positions as it has slots. -/
theorem Indexed.filled_of_full (h : Indexed v n) {c : Nat} (hc : c < v.heads)
    (hfull : ∀ i ∈ v.chainSlots c, (v.slot i).isSome) : (v.chainSlots c).map v.slot = (v.recorded n c).map some := by
  obtain ⟨k, hk⟩ := h.filled c hc
  rcases Nat.eq_zero_or_pos k with rfl | hpos
  · simpa using hk
  · have hnone : none ∈ (v.chainSlots c).map v.slot := by
      rw [hk]
      exact List.mem_append_right _ (List.mem_replicate.2 ⟨Nat.ne_of_gt hpos, rfl⟩)
    obtain ⟨i, hi, hempty⟩ := List.mem_map.1 hnone
    have hsome := hfull i hi
    rw [hempty] at hsome
    cases hsome

theorem Indexed.length_of_full (h : Indexed v n) {c : Nat} (hc : c < v.heads)
    (hfull : ∀ i ∈ v.chainSlots c, (v.slot i).isSome) :
    bucketSize * ((v.overflow.getD c []).length + 1) = (v.recorded n c).length := by
  have hlen := congrArg List.length (h.filled_of_full hc hfull)
  rw [List.length_map, List.length_map] at hlen
  rw [← hlen]
  show _ = ((v.chain c).flatMap bucketSlots).length
  rw [List.length_flatMap, List.map_congr_left fun b _ => Table.length_bucketSlots b]
  simp [chain, bucketSize]
  omega

/-- Recording a position in a new bucket, as its chain is full. -/
theorem Indexed.place_bucket (h : Indexed v n) {c : Nat} (hc : v.home (v.hashAt n) = c) (hroom : v.used < v.capacity)
    (hfull : ∀ i ∈ v.chainSlots c, (v.slot i).isSome) : Indexed (v.extended c n) (n + 1) := by
  have hlt : c < v.heads := hc ▸ h.storage.home_lt _
  have hsize : bucketSize * v.used < v.slots.size := by
    rw [h.slots_size]
    simp only [bucketSize]
    omega
  have hrec : ∀ d, (v.extended c n).recorded (n + 1) d = v.recorded n d ++ if c = d then [n] else [] := fun d => by
    rw [← hc, ← recorded_succ]
    exact recorded_congr rfl rfl _ _
  refine ⟨(h.storage.addOverflow hlt hroom).congr rfl rfl rfl ?_ rfl, fun d hd => ?_, fun d hd => ?_⟩
  · simp [buckets, extended, Table.addOverflow, Table.resetBucket, Table.size_foldl_empty]
  · have hold : (v.chainSlots d).map (v.extended c n).slot = (v.chainSlots d).map v.slot := by
      refine List.map_congr_left fun j hj => ?_
      have hlt : j / bucketSize < v.used := h.storage.bucket_lt hd (Table.mem_chainSlots.1 hj)
      have hne : j ≠ bucketSize * v.used := fun heq => by
        rw [heq, Nat.mul_div_cancel_left _ (by decide : 0 < bucketSize)] at hlt
        omega
      rw [slot_extended hsize, if_neg hne, if_neg (by omega)]
    rw [chainSlots_extended h.storage hlt, List.map_append, hold, hrec]
    by_cases hdc : d = c
    · subst hdc
      rw [h.filled_of_full hd hfull, if_pos rfl, if_pos rfl, slots_of_new_bucket hsize]
      exact ⟨7, by simp⟩
    · obtain ⟨k, hk⟩ := h.filled d hd
      exact ⟨k, by rw [hk, if_neg hdc, if_neg (Ne.symm hdc)]; simp⟩
  · rw [length_overflow_extended h.storage hlt, hrec, List.length_append]
    by_cases hdc : d = c
    · subst hdc
      rw [if_pos rfl, h.length_of_full hd hfull]
      exact Nat.le_add_right _ _
    · rw [if_neg hdc, Nat.add_zero]
      exact Nat.le_trans (h.tight d hd) (Nat.le_add_right _ _)

/-- **Recording the next position** keeps the index in order if there is room for another bucket. -/
theorem Indexed.place (h : Indexed v n) {hash : UInt32} (hhash : v.hashAt n = hash) (hroom : v.used < v.capacity) :
    Indexed (v.place hash n) (n + 1) := by
  subst hhash
  unfold View.place
  dsimp only
  split
  · rename_i i hi
    exact h.place_slot rfl hi
  · rename_i hnone
    refine h.place_bucket rfl hroom fun i hi => ?_
    have hslot := List.find?_eq_none.1 hnone i hi
    simpa [Option.isSome_iff_ne_none] using hslot

end ValueCore.View
