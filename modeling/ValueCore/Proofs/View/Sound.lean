import ValueCore.Proofs.View.Index

/-!
# The invariant of a view

A view is sound when its index records all of its entries, and there is room for them in the entry array. Then a search
finds the first entry that has the hash and the key (`Sound.find_eq`): the path through the index and the path through
the entries agree.

| the write | asks for | and then |
| --- | --- | --- |
| `push` | room for an entry and a bucket | there is one more entry (`Sound.push`) |
| `setValue` | nothing | one value is another (`Sound.setValue`) |
| `rehashed` | a power of two | the entries are the same (`Sound.rehashed`) |
| `withEntryRoom`, `withDoubledBuckets` | no less room than is needed | nothing else has changed |
-/

namespace ValueCore.View

open Table (bucketSlots mem_bucketSlots)

variable {v v' : View} {n : Nat}

/-- **The invariant.** -/
structure Sound (v : View) : Prop extends Indexed v v.length where
  fits : v.length ≤ v.entryCapacity

/-- The index depends on the hashes of the entries that it records. -/
theorem Indexed.congr (h : Indexed v n) (hheads : v'.heads = v.heads) (hused : v'.used = v.used)
    (hcap : v'.capacity = v.capacity) (hslots : v'.slots = v.slots) (hover : v'.overflow = v.overflow)
    (hhash : ∀ p < n, v'.hashAt p = v.hashAt p) : Indexed v' n := by
  have hrec : ∀ c, v'.recorded n c = v.recorded n c := fun c => List.filter_congr fun p hp => by
    rw [hhash p (List.mem_range.1 hp), home, hheads, home]
  have hslot : v'.slot = v.slot := funext fun i => by simp only [slot, hslots]
  have hchain : ∀ c, v'.chainSlots c = v.chainSlots c := fun c => by
    simp only [chainSlots, Table.chainSlots, Table.chain, buckets, hover]
  refine ⟨h.storage.congr hheads hused hcap ?_ hover, fun c hc => ?_, fun c hc => ?_⟩
  · simp only [buckets, hslots]
  · rw [hchain, hslot, hrec]
    exact h.filled c (hheads ▸ hc)
  · rw [hover, hrec]
    exact h.tight c (hheads ▸ hc)

/-! ## Writing -/

theorem items_of_entries (h : v'.entries = v.entries) : v'.items = v.items := by rw [items, items, h]

theorem length_items (v : View) : v.items.length = v.length := by simp [items, length]

/-- An index of fresh buckets records nothing. -/
theorem indexed_fresh (hp : ∃ k ≤ 24, v.heads = 2 ^ k) (hcap : v.heads ≤ v.capacity) (hused : v.used = v.heads)
    (hslots : v.slots = Array.replicate (bucketSize * v.capacity) none)
    (hover : v.overflow = Array.replicate v.heads []) : Indexed v 0 := by
  have hs : Table.Storage v.buckets := (Table.withStorage_storage none hp hcap).congr rfl hused rfl
    (by simp [buckets, Table.withStorage, hslots]) hover
  refine ⟨hs, fun c hc => ⟨(v.chainSlots c).length, ?_⟩, fun c hc => ?_⟩
  · have hnone : ∀ i, v.slot i = none := fun i => by
      simp only [slot, hslots, Array.getElem?_replicate]
      split <;> rfl
    rw [show v.slot = fun _ => none from funext hnone]
    simp [recorded]
  · simp [hover, hc]

theorem sound_empty : Sound empty :=
  ⟨indexed_fresh ⟨0, by decide, rfl⟩ (Nat.le_refl 1) rfl rfl rfl, Nat.le_refl 0⟩

theorem Sound.withEntryRoom (h : Sound v) {capacity : Nat} (hcap : v.length ≤ capacity) (block : Option Block) :
    Sound (v.withEntryRoom capacity block) :=
  ⟨h.toIndexed.congr rfl rfl rfl rfl rfl fun _ _ => rfl, hcap⟩

theorem slot_withDoubledBuckets (block : Option Block) (i : Nat) : (v.withDoubledBuckets block).slot i = v.slot i := by
  simp only [slot, withDoubledBuckets, Array.getElem?_append]
  by_cases hi : i < v.slots.size
  · rw [if_pos hi]
  · rw [if_neg hi, (Array.getElem?_eq_none (Nat.le_of_not_lt hi) : v.slots[i]? = none), Array.getElem?_replicate]
    split <;> rfl

theorem Sound.withDoubledBuckets (h : Sound v) (block : Option Block) : Sound (v.withDoubledBuckets block) := by
  have hslots := h.slots_size
  have hused : v.used ≤ v.capacity := h.storage.used_le
  refine ⟨⟨⟨h.storage.heads_pow, ?_, ?_, h.storage.overflow_size, h.storage.partition⟩, fun c hc => ?_, h.tight⟩, h.fits⟩
  · show v.used ≤ 2 * v.capacity
    omega
  · simp [buckets, View.withDoubledBuckets, Table.withStorage, hslots, bucketSize]
    omega
  · rw [show (v.withDoubledBuckets block).slot = v.slot from funext (slot_withDoubledBuckets block)]
    exact h.filled c hc

theorem Sound.setValue (h : Sound v) (p : Nat) (value : Value) : Sound (v.setValue p value) := by
  have hhash : ∀ q, (v.setValue p value).hashAt q = v.hashAt q := fun q => by
    simp only [hashAt, View.setValue, Array.getElem?_modify]
    by_cases hq : p = q
    · subst hq
      cases v.entries[p]? <;> simp
    · simp [hq]
  have hlen : (v.setValue p value).length = v.length := by simp [View.setValue, length]
  refine ⟨?_, by rw [hlen]; exact h.fits⟩
  rw [hlen]
  exact h.toIndexed.congr rfl rfl rfl rfl rfl fun q _ => hhash q

theorem items_setValue (p : Nat) (value : Value) :
    (v.setValue p value).items = v.items.modify p fun item => (item.1, value) := by
  refine List.ext_getElem? fun q => ?_
  simp only [items, View.setValue, Array.toList_modify, List.getElem?_map, List.getElem?_modify]
  by_cases hq : p = q
  · subst hq
    cases v.entries.toList[p]? <;> simp
  · simp [hq]

theorem entries_push (hash : UInt32) (key : Bytes) (value : Value) :
    (v.push hash key value).entries = v.entries.push ⟨hash, key, value⟩ := (place_frame _ _ _).1

theorem items_push (hash : UInt32) (key : Bytes) (value : Value) :
    (v.push hash key value).items = v.items ++ [(key, value)] := by simp [items, entries_push]

/-- **One more entry.** -/
theorem Sound.push (h : Sound v) (hash : UInt32) (key : Bytes) (value : Value) (hroom : v.used < v.capacity)
    (hfits : v.length < v.entryCapacity) : Sound (v.push hash key value) := by
  have hlen : (v.push hash key value).length = v.length + 1 := by simp [length, entries_push]
  -- the entry is there, but not yet recorded
  have hindex : Indexed { v with entries := v.entries.push ⟨hash, key, value⟩ } v.length :=
    h.toIndexed.congr rfl rfl rfl rfl rfl fun p hp => by
      simp only [hashAt, Array.getElem?_push, length] at hp ⊢
      rw [if_neg (Nat.ne_of_lt hp)]
  have hnew : ({ v with entries := v.entries.push ⟨hash, key, value⟩ } : View).hashAt v.length = hash := by
    simp [hashAt, length]
  have hplaced := hindex.place hnew hroom
  refine ⟨?_, ?_⟩
  · rw [hlen]
    exact hplaced
  · rw [hlen, View.push, (place_frame _ _ _).2.2.2]
    exact hfits

/-! ## Rebuilding the index -/

/-- Recording positions one after the other. -/
theorem Indexed.foldl_place : ∀ (hashes : List UInt32) {v : View} {n : Nat}, Indexed v n →
    (∀ i hash, hashes[i]? = some hash → v.hashAt (n + i) = hash) →
    bucketSize * v.heads + (n + hashes.length) < bucketSize * v.capacity →
      Indexed ((hashes.zipIdx n).foldl (fun v item => v.place item.1 item.2) v) (n + hashes.length) ∧
      ((hashes.zipIdx n).foldl (fun v item => v.place item.1 item.2) v).entries = v.entries ∧
      ((hashes.zipIdx n).foldl (fun v item => v.place item.1 item.2) v).heads = v.heads ∧
      ((hashes.zipIdx n).foldl (fun v item => v.place item.1 item.2) v).entryCapacity = v.entryCapacity
  | [], v, n, h, _, _ => ⟨h, rfl, rfl, rfl⟩
  | hash :: hashes, v, n, h, hhash, hroom => by
    rw [List.length_cons] at hroom
    obtain ⟨hentries, hheads, hcap, hentry⟩ := place_frame v hash n
    have hplaced := h.place (hhash 0 hash rfl) (h.used_lt (by omega))
    have hat : ∀ p, (v.place hash n).hashAt p = v.hashAt p := fun p => by rw [hashAt, hashAt, hentries]
    obtain ⟨hall, he, hh, hc⟩ := foldl_place hashes hplaced
      (fun i x hx => by rw [hat, Nat.add_right_comm, Nat.add_assoc]; exact hhash (i + 1) x hx)
      (by rw [hheads, hcap]; omega)
    rw [List.zipIdx_cons, List.foldl_cons, List.length_cons, Nat.add_comm hashes.length, ← Nat.add_assoc]
    exact ⟨hall, he.trans hentries, hh.trans hheads, hc.trans hentry⟩

/-- The index that the positions are recorded in when it is rebuilt. -/
def bare (v : View) (heads : Nat) (block : Option Block) : View :=
  { v with
    heads, used := heads, capacity := v.rehashedCapacity heads, bucketBlock := block
    slots := Array.replicate (bucketSize * v.rehashedCapacity heads) none
    overflow := Array.replicate heads [] }

def hashes (v : View) : List UInt32 := v.entries.toList.map (·.hash)

theorem rehashed_eq (v : View) (heads : Nat) (block : Option Block) :
    v.rehashed heads block = v.hashes.zipIdx.foldl (fun v item => v.place item.1 item.2) (v.bare heads block) := rfl

theorem length_hashes (v : View) : v.hashes.length = v.length := by simp [hashes, length]

theorem hashAt_of_hashes {i : Nat} {hash : UInt32} (h : v.hashes[i]? = some hash) : v.hashAt i = hash := by
  rw [hashes, List.getElem?_map, Array.getElem?_toList] at h
  rw [hashAt, h]
  rfl

theorem indexed_bare (v : View) {heads : Nat} (hp : ∃ k ≤ 24, heads = 2 ^ k) (block : Option Block) :
    Indexed (v.bare heads block) 0 := by
  have hcap : heads ≤ v.rehashedCapacity heads := by
    rw [rehashedCapacity, Nat.add_assoc]
    exact Nat.le_add_right _ _
  exact indexed_fresh (v := v.bare heads block) hp hcap rfl rfl rfl

/-- The buckets that are asked for are enough for all entries, however their hashes are distributed. -/
theorem bare_room (v : View) (heads : Nat) (block : Option Block) :
    bucketSize * (v.bare heads block).heads + (0 + v.hashes.length) < bucketSize * (v.bare heads block).capacity := by
  have hmax : v.length ≤ max v.length v.entryCapacity := Nat.le_max_left _ _
  rw [length_hashes]
  show bucketSize * heads + (0 + v.length) < bucketSize * v.rehashedCapacity heads
  simp only [rehashedCapacity, bucketSize]
  omega

/-- **Rebuilding the index** keeps the entries. Whatever the index was like before, it is in order then. -/
theorem sound_rehashed (hfits : v.length ≤ v.entryCapacity) {heads : Nat} (hp : ∃ k ≤ 24, heads = 2 ^ k)
    (block : Option Block) : Sound (v.rehashed heads block) ∧ (v.rehashed heads block).entries = v.entries ∧
    (v.rehashed heads block).heads = heads := by
  obtain ⟨hall, he, hh, hc⟩ := (indexed_bare v hp block).foldl_place v.hashes
    (fun i hash hi => by rw [Nat.zero_add]; exact hashAt_of_hashes hi) (bare_room v heads block)
  rw [← rehashed_eq] at hall he hh hc
  rw [Nat.zero_add, length_hashes] at hall
  have hlen : (v.rehashed heads block).length = v.length := congrArg Array.size he
  refine ⟨⟨?_, ?_⟩, he, hh⟩
  · rw [hlen]
    exact hall
  · rw [hlen]
    exact Nat.le_trans hfits (Nat.le_of_eq hc.symm)

theorem Sound.rehashed (h : Sound v) {heads : Nat} (hp : ∃ k ≤ 24, heads = 2 ^ k) (block : Option Block) :
    Sound (v.rehashed heads block) ∧ (v.rehashed heads block).entries = v.entries ∧
    (v.rehashed heads block).heads = heads := sound_rehashed h.fits hp block

/-! ## Storage -/

/-- The storage of a view. -/
def SameStorage (v v' : View) : Prop :=
  v'.entryCapacity = v.entryCapacity ∧ v'.entryBlock = v.entryBlock ∧ v'.capacity = v.capacity ∧
    v'.bucketBlock = v.bucketBlock

theorem sameStorage_place (v : View) (hash : UInt32) (position : Nat) : SameStorage v (v.place hash position) := by
  unfold place
  dsimp only
  split <;> exact ⟨rfl, rfl, rfl, rfl⟩

theorem sameStorage_push (v : View) (hash : UInt32) (key : Bytes) (value : Value) : SameStorage v (v.push hash key value) :=
  sameStorage_place { v with entries := v.entries.push ⟨hash, key, value⟩ } hash v.length

theorem length_push (v : View) (hash : UInt32) (key : Bytes) (value : Value) :
    (v.push hash key value).length = v.length + 1 := by
  have hentries := (place_frame { v with entries := v.entries.push ⟨hash, key, value⟩ } hash v.length).1
  exact (congrArg Array.size hentries).trans (Array.size_push _)

theorem foldl_place_storage : ∀ (l : List (UInt32 × Nat)) (v : View),
    SameStorage v (l.foldl (fun v (hash, position) => v.place hash position) v) ∧
      (l.foldl (fun v (hash, position) => v.place hash position) v).entries = v.entries
  | [], _ => ⟨⟨rfl, rfl, rfl, rfl⟩, rfl⟩
  | (hash, position) :: l, v => by
    obtain ⟨⟨i1, i2, i3, i4⟩, i5⟩ := foldl_place_storage l (v.place hash position)
    obtain ⟨h1, h2, h3, h4⟩ := sameStorage_place v hash position
    exact ⟨⟨i1.trans h1, i2.trans h2, i3.trans h3, i4.trans h4⟩, i5.trans (place_frame v hash position).1⟩

/-- The storage of a view whose index was rebuilt. -/
theorem rehashed_storage (v : View) (heads : Nat) (block : Option Block) :
    (v.rehashed heads block).entryCapacity = v.entryCapacity ∧ (v.rehashed heads block).entryBlock = v.entryBlock ∧
      (v.rehashed heads block).capacity = v.rehashedCapacity heads ∧ (v.rehashed heads block).bucketBlock = block ∧
      (v.rehashed heads block).length = v.length := by
  obtain ⟨⟨h1, h2, h3, h4⟩, h5⟩ := foldl_place_storage v.hashes.zipIdx (v.bare heads block)
  exact ⟨h1, h2, h3, h4, congrArg Array.size h5⟩

/-! ## Searching -/

/-- The positions at which a list has something, in order, are those at which it is found. -/
theorem find?_range_eq_findIdx? {α : Type} (q : α → Bool) (l : List α) :
    ((List.range l.length).find? fun p => (l[p]?.map q).getD false) = l.findIdx? q := by
  refine Option.ext fun p => ?_
  rw [List.find?_range_eq_some, List.findIdx?_eq_some_iff_getElem]
  constructor
  · rintro ⟨hq, hp, hbefore⟩
    have hp := List.mem_range.1 hp
    refine ⟨hp, by simpa [hp] using hq, fun j hj => ?_⟩
    simpa [Nat.lt_trans hj hp] using hbefore j hj
  · rintro ⟨hp, hq, hbefore⟩
    refine ⟨by simpa [hp] using hq, List.mem_range.2 hp, fun j hj => ?_⟩
    simpa [Nat.lt_trans hj hp] using hbefore j hj

/-- **A search finds the first entry that has the hash and the key.** All of them are on one chain. -/
theorem Sound.find_eq (h : Sound v) (hash : UInt32) (key : Bytes) :
    v.find hash key = v.entries.toList.findIdx? fun e => e.hash = hash && e.key = key := by
  have hchain : v.chainPositions (v.home hash) = v.recorded v.length (v.home hash) :=
    h.chainPositions_eq (h.storage.home_lt hash)
  rw [View.find, hchain, recorded, List.find?_filter, length, ← Array.length_toList, ← find?_range_eq_findIdx?]
  refine congrArg (fun q => List.find? q _) (funext fun p => ?_)
  rw [← Array.getElem?_toList, hashAt, ← Array.getElem?_toList]
  cases v.entries.toList[p]? with
  | none => simp
  | some e =>
    by_cases hhash : e.hash = hash
    · simp [hhash]
    · simp [hhash]

/-! ## Keys under their own hash -/

/-- Every entry has the hash of its key. -/
def Hashed (v : View) : Prop := ∀ e ∈ v.entries.toList, e.hash = e.key.fnv1a

theorem hashed_empty : Hashed empty := by simp [Hashed, empty]

theorem Hashed.push (h : Hashed v) (key : Bytes) (value : Value) : Hashed (v.push key.fnv1a key value) := by
  intro e he
  rw [entries_push, Array.toList_push, List.mem_append, List.mem_singleton] at he
  rcases he with he | rfl
  · exact h e he
  · rfl

theorem Hashed.setValue (h : Hashed v) (p : Nat) (value : Value) : Hashed (v.setValue p value) := by
  intro e he
  rw [View.setValue, Array.toList_modify] at he
  obtain ⟨q, hq⟩ := List.mem_iff_getElem?.1 he
  rw [List.getElem?_modify] at hq
  obtain ⟨old, hold, rfl⟩ := Option.map_eq_some_iff.1 hq
  have hhash := h old (List.mem_of_getElem? hold)
  by_cases hpq : p = q
  · rw [if_pos hpq]
    exact hhash
  · rw [if_neg hpq]
    exact hhash

theorem findIdx?_congr {α : Type} {p q : α → Bool} : ∀ {l : List α}, (∀ x ∈ l, p x = q x) → l.findIdx? p = l.findIdx? q
  | [], _ => rfl
  | x :: l, h => by
    rw [List.findIdx?_cons, List.findIdx?_cons, h x List.mem_cons_self,
      findIdx?_congr fun y hy => h y (List.mem_cons_of_mem _ hy)]

/-- **Searching under the hash of the key is searching the items for the key.** -/
theorem Sound.find_own (h : Sound v) (hh : Hashed v) (key : Bytes) :
    v.find key.fnv1a key = v.items.findIdx? fun item => item.1 = key := by
  rw [h.find_eq, items, List.findIdx?_map]
  refine findIdx?_congr fun e he => ?_
  rw [hh e he]
  by_cases hkey : e.key = key <;> simp [hkey]

end ValueCore.View
