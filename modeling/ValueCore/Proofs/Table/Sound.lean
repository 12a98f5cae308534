import Mathlib.Data.List.Nodup
import Mathlib.Data.List.Perm.Basic
import ValueCore.Proofs.Table.Order

/-!
# The invariant of a table

`Sound t` says that the storage of `t` hangs together. It has two halves.

* `Storage t` is about buckets alone: the number of chains is a power of two, there is room for the buckets
  in use, and the chains are a partition of them.
* `Ordered t is` is about entries: the live slots are exactly `is`, each of them once; they are linked in
  this order from `first` to `last`; and each lies on the chain that its hash selects.

Between operations the order is the one that the table itself gives (`Table.order`). During a write it is
more convenient to name it, and `Ordered.order_eq` goes back.
-/

namespace ValueCore.Table

variable {κ : Type} {t t' : Table κ}

/-! ## Buckets and their slots -/

theorem mem_bucketSlots {b i : Nat} : i ∈ bucketSlots b ↔ i / bucketSize = b := by
  simp only [bucketSlots, List.mem_map, List.mem_range, bucketSize]
  constructor
  · rintro ⟨s, hs, rfl⟩; omega
  · intro h; exact ⟨i % 8, by omega, by omega⟩

theorem nodup_bucketSlots (b : Nat) : (bucketSlots b).Nodup :=
  (List.nodup_range (n := bucketSize)).map fun x y (h : bucketSize * b + x = bucketSize * b + y) => by omega

theorem length_bucketSlots (b : Nat) : (bucketSlots b).length = bucketSize := by simp [bucketSlots]

theorem mem_chainSlots {h i : Nat} : i ∈ t.chainSlots h ↔ i / bucketSize ∈ t.chain h := by
  simp only [chainSlots, List.mem_flatMap, mem_bucketSlots, exists_eq_right']

theorem div_bucketSize_lt {i n : Nat} : i / bucketSize < n ↔ i < bucketSize * n := by
  simp only [bucketSize]; omega

theorem head_mem_chain (h : Nat) : h ∈ t.chain h := by simp [chain]

theorem lastBucket_mem (h : Nat) : t.lastBucket h ∈ t.chain h := by
  unfold lastBucket chain
  cases t.overflow.getD h [] with
  | nil => simp
  | cons b bs =>
    rw [List.getLastD_cons]
    exact List.mem_cons_of_mem _ List.getLastD_mem_cons

/-! ## The storage -/

/-- The buckets are in order. -/
structure Storage (t : Table κ) : Prop where
  heads_pow : ∃ k ≤ 24, t.heads = 2 ^ k
  used_le : t.used ≤ t.capacity
  slots_size : t.slots.size = bucketSize * t.capacity
  overflow_size : t.overflow.size = t.heads
  /-- The chains, one after the other, are the buckets in use. -/
  partition : ((List.range t.heads).flatMap t.chain).Perm (List.range t.used)

namespace Storage

theorem heads_pos (h : Storage t) : 0 < t.heads := by
  obtain ⟨k, _, hk⟩ := h.heads_pow
  rw [hk]; exact Nat.two_pow_pos k

/-- Up to the limit there can be twice as many chains. -/
theorem pow_double (h : Storage t) (hmax : t.heads < maxHeads) : ∃ k ≤ 24, 2 * t.heads = 2 ^ k := by
  obtain ⟨k, _, hk⟩ := h.heads_pow
  rw [hk, maxHeads] at hmax
  exact ⟨k + 1, (Nat.pow_lt_pow_iff_right (by decide : 1 < 2)).1 hmax, by rw [hk, Nat.pow_succ, Nat.mul_comm]⟩

theorem home_lt (h : Storage t) (hash : UInt32) : t.home hash < t.heads := Nat.mod_lt _ h.heads_pos

theorem nodup_chains (h : Storage t) : ((List.range t.heads).flatMap t.chain).Nodup :=
  h.partition.nodup_iff.2 List.nodup_range

theorem bucket_lt_iff (h : Storage t) {b : Nat} : b < t.used ↔ ∃ c < t.heads, b ∈ t.chain c := by
  rw [← List.mem_range, ← h.partition.mem_iff, List.mem_flatMap]
  simp only [List.mem_range]

theorem bucket_lt (h : Storage t) {b c : Nat} (hc : c < t.heads) (hb : b ∈ t.chain c) : b < t.used :=
  h.bucket_lt_iff.2 ⟨c, hc, hb⟩

theorem heads_le (h : Storage t) : t.heads ≤ t.used := by
  have hh := h.heads_pos
  have := h.bucket_lt (c := t.heads - 1) (by omega) (head_mem_chain _)
  omega

/-- No bucket is on two chains. -/
theorem chain_unique (h : Storage t) {b c d : Nat} (hc : c < t.heads) (hd : d < t.heads)
    (hbc : b ∈ t.chain c) (hbd : b ∈ t.chain d) : c = d := by
  have key : ∀ {x y : Nat}, x < y → y < t.heads → b ∈ t.chain x → b ∈ t.chain y → False := by
    intro x y hxy hy hbx hby
    have hp := (List.nodup_flatMap.1 h.nodup_chains).2
    have hdis := List.pairwise_iff_getElem.1 hp x y (by simp; omega) (by simpa) hxy
    simp only [List.getElem_range] at hdis
    exact hdis hbx hby
  rcases Nat.lt_trichotomy c d with hlt | heq | hlt
  · exact (key hlt hd hbc hbd).elim
  · exact heq
  · exact (key hlt hc hbd hbc).elim

theorem nodup_chainSlots (h : Storage t) {c : Nat} (hc : c < t.heads) : (t.chainSlots c).Nodup := by
  have hchain : (t.chain c).Nodup := (List.nodup_flatMap.1 h.nodup_chains).1 c (List.mem_range.2 hc)
  refine List.nodup_flatMap.2 ⟨fun b _ => nodup_bucketSlots b, hchain.imp fun {b d} hbd i hb hd => ?_⟩
  exact hbd ((mem_bucketSlots.1 hb).symm.trans (mem_bucketSlots.1 hd))

theorem slot_lt (h : Storage t) {c i : Nat} (hc : c < t.heads) (hi : i ∈ t.chainSlots c) :
    i < bucketSize * t.used :=
  div_bucketSize_lt.1 (h.bucket_lt hc (mem_chainSlots.1 hi))

theorem slot_lt_size (h : Storage t) {i : Nat} (hi : i < bucketSize * t.used) : i < t.slots.size := by
  have hu := h.used_le
  rw [h.slots_size]
  simp only [bucketSize] at hi ⊢; omega

theorem congr (h : Storage t) (hheads : t'.heads = t.heads) (hused : t'.used = t.used)
    (hcap : t'.capacity = t.capacity) (hsize : t'.slots.size = t.slots.size)
    (hover : t'.overflow = t.overflow) : Storage t' := by
  have hchain : t'.chain = t.chain := funext fun c => by simp only [chain, hover]
  refine ⟨?_, ?_, ?_, ?_, ?_⟩
  · rw [hheads]; exact h.heads_pow
  · rw [hused, hcap]; exact h.used_le
  · rw [hsize, hcap]; exact h.slots_size
  · rw [hover, hheads]; exact h.overflow_size
  · rw [hheads, hchain, hused]; exact h.partition

end Storage

/-! ## The entries -/

/-- The live slots are `is`, linked in this order, each on the chain of its hash. -/
structure Ordered (t : Table κ) (is : List Nat) : Prop where
  linked : Linked t none is none
  first_eq : t.first = is.head?
  last_eq : t.last = is.getLast?
  length_eq : t.length = is.length
  nodup : is.Nodup
  live : ∀ i, i ∈ is ↔ i < bucketSize * t.used ∧ (t.slot i).isSome
  placed : ∀ i ∈ is, ∀ e, t.slot i = some e → e.hash ≠ 0 ∧ i ∈ t.chainSlots (t.home e.hash)

theorem Ordered.order_eq {is : List Nat} (h : Ordered t is) : t.order = is :=
  Table.order_eq h.linked h.first_eq h.length_eq

/-- **The invariant.** -/
structure Sound (t : Table κ) : Prop extends Storage t, Ordered t t.order

theorem Storage.sound {is : List Nat} (hs : Storage t) (ho : Ordered t is) : Sound t :=
  ⟨hs, ho.order_eq.symm ▸ ho⟩

namespace Sound

theorem slot_of_mem (h : Sound t) {i : Nat} (hi : i ∈ t.order) : ∃ e, t.slot i = some e :=
  Option.isSome_iff_exists.1 ((h.live i).1 hi).2

theorem mem_order (h : Sound t) {c i : Nat} (hc : c < t.heads) (hi : i ∈ t.chainSlots c) {e : Entry κ}
    (he : t.slot i = some e) : i ∈ t.order :=
  (h.live i).2 ⟨h.slot_lt hc hi, by rw [he]; rfl⟩

theorem order_eq_nil (h : Sound t) (hl : t.length = 0) : t.order = [] :=
  List.length_eq_zero_iff.1 (h.length_eq ▸ hl)

/-- A scan of the chain of a hash meets exactly the entries stored under it. -/
theorem mem_candidates (h : Sound t) {hash : UInt32} {i : Nat} {k : κ} :
    (i, k) ∈ t.candidates hash ↔ i ∈ t.order ∧ ∃ e, t.slot i = some e ∧ e.hash = hash ∧ e.key = k := by
  simp only [candidates, List.mem_filterMap]
  constructor
  · rintro ⟨j, hj, hm⟩
    cases he : t.slot j with
    | none => simp [he] at hm
    | some e =>
      by_cases hh : e.hash = hash
      · simp only [he, hh, if_true, Option.some.injEq, Prod.mk.injEq] at hm
        obtain ⟨rfl, rfl⟩ := hm
        exact ⟨h.mem_order (h.home_lt hash) hj he, e, he, hh, rfl⟩
      · simp [he, hh] at hm
  · rintro ⟨hi, e, he, rfl, rfl⟩
    exact ⟨i, (h.placed i hi e he).2, by simp [he]⟩

end Sound

end ValueCore.Table
