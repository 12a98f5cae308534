import Mathlib.Data.Nat.Bitwise
import ValueCore.Proofs.Reachable

/-!
# Reachable tables are consistent

`Table.Consistent` is what one may rely on when a table is at rest, said of its slots, chains and links as
they are stored. Every table of every reachable world has it (`reachable_consistent`): operations may have
failed at any point, requests for memory may have been refused, and the program's own hashing, comparing,
writing and freezing may have come back to the table at any time.
-/

namespace ValueCore

namespace Table

variable {κ : Type} {t : Table κ}

/-- The hash that a slot stores, zero for an empty one. -/
def hashIn (t : Table κ) (i : Nat) : UInt32 := ((t.slot i).map (·.hash)).getD 0

/-- The storage of a table at rest. -/
structure Consistent (t : Table κ) : Prop where
  heads_pow : ∃ k, t.heads = 2 ^ k
  heads_le : t.heads ≤ t.used
  used_le : t.used ≤ t.capacity
  /-- The chains meet every bucket in use once, and no other. -/
  chains : ((List.range t.heads).flatMap t.chain).Perm (List.range t.used)
  live_iff : ∀ i < bucketSize * t.used, (t.slot i).isSome ↔ t.hashIn i ≠ 0
  /-- A live slot is on the chain that its hash selects. -/
  placed : ∀ i < bucketSize * t.used, (t.slot i).isSome →
    i ∈ t.chainSlots ((t.hashIn i).toNat &&& (t.heads - 1))
  /-- The links lead from the first slot through every live slot, once each, to the last one and end there. -/
  forwards : ∀ steps, t.length ≤ steps → t.walk steps t.first = t.order
  order_nodup : t.order.Nodup
  mem_order : ∀ i, i ∈ t.order ↔ i < bucketSize * t.used ∧ (t.slot i).isSome
  order_last : t.order.getLast? = t.last
  /-- Backwards they lead through the same slots in reverse and end there. -/
  backwards : ∀ steps, t.length ≤ steps → t.walkBack steps t.last = t.order.reverse
  before_first : ∀ i ∈ t.first, ∃ e, t.slot i = some e ∧ e.before = none
  after_last : ∀ i ∈ t.last, ∃ e, t.slot i = some e ∧ e.after = none
  first_eq_none : t.first = none ↔ t.length = 0
  last_eq_none : t.last = none ↔ t.length = 0
  length_eq : t.length = ((List.range (bucketSize * t.used)).filter fun i => (t.slot i).isSome).length

theorem home_eq_and (h : Storage t) (hash : UInt32) : hash.toNat &&& (t.heads - 1) = t.home hash := by
  obtain ⟨k, _, hk⟩ := h.heads_pow
  rw [home, hk, Nat.and_two_pow_sub_one_eq_mod]

theorem hashIn_eq {i : Nat} {e : Entry κ} (he : t.slot i = some e) : t.hashIn i = e.hash := by
  rw [hashIn, he]; rfl

theorem Sound.consistent (h : Sound t) : Consistent t := by
  have hlive : ∀ i < bucketSize * t.used, ∀ e, t.slot i = some e → i ∈ t.order := fun i hi e he =>
    (h.live i).2 ⟨hi, by rw [he]; rfl⟩
  refine ⟨?_, h.heads_le, h.used_le, h.partition, fun i hi => ?_, fun i hi hs => ?_, fun steps hle => ?_, h.nodup,
    h.live, h.last_eq.symm, fun steps hle => ?_, fun i hi => ?_, fun i hi => ?_, ?_, ?_, ?_⟩
  · obtain ⟨k, _, hk⟩ := h.heads_pow
    exact ⟨k, hk⟩
  · cases he : t.slot i with
    | none => simp [hashIn, he]
    | some e => simpa [hashIn_eq he] using (h.placed i (hlive i hi e he) e he).1
  · obtain ⟨e, he⟩ := Option.isSome_iff_exists.1 hs
    rw [hashIn_eq he, home_eq_and h.toStorage]
    exact (h.placed i (hlive i hi e he) e he).2
  · rw [h.first_eq]
    exact walk_eq h.linked (h.length_eq ▸ hle)
  · rw [h.last_eq]
    exact walkBack_eq h.linked (h.length_eq ▸ hle)
  · obtain ⟨b, hb⟩ : ∃ b, t.order = i :: b := List.head?_eq_some_iff.1 (h.first_eq ▸ hi)
    obtain ⟨e, he, hbefore, _⟩ := links_eq_some.1 (linked_at (a := []) (b := b) (hb ▸ h.linked))
    exact ⟨e, he, hbefore⟩
  · obtain ⟨a, ha⟩ : ∃ a, t.order = a ++ [i] := List.getLast?_eq_some_iff.1 (h.last_eq ▸ hi)
    obtain ⟨e, he, _, hafter⟩ := links_eq_some.1 (linked_at (a := a) (b := []) (ha ▸ h.linked))
    exact ⟨e, he, hafter⟩
  · rw [h.first_eq, List.head?_eq_none_iff, h.length_eq, List.length_eq_zero_iff]
  · rw [h.last_eq, List.getLast?_eq_none_iff, h.length_eq, List.length_eq_zero_iff]
  · -- the live slots in order are those that counting up meets, in another order
    rw [h.length_eq]
    refine (List.Perm.length_eq ?_)
    refine (List.perm_ext_iff_of_nodup h.nodup (List.nodup_range.filter _)).2 fun i => ?_
    rw [h.live, List.mem_filter, List.mem_range]

end Table

open World

variable {ε : Type} {I : Inventory ε} {w : World ε} {kind : KeyKind}

/-- **Between operations every table is consistent.** -/
theorem reachable_consistent (h : Reachable I w) (t : TableId kind) : (w.table t).Consistent :=
  (h.sound.tables t).consistent

/-- Two colliding values are in the table, and what the host tried when it was asked to compare them is not. -/
theorem reachable_consistent_meddled :
    (@World.table _ (insertHost 1 (insertHost 0 noted)) .any ⟨0⟩).Consistent ∧
    (@World.table _ (insertHost 1 (insertHost 0 noted)) .any ⟨0⟩).keys = [.host ⟨0⟩, .host ⟨1⟩] := by
  have h1 : Reachable oneTable (insertHost 0 noted) := reachable_insertHost reachable_noted (by decide +kernel) 0
  have h2 : Reachable oneTable (insertHost 1 (insertHost 0 noted)) := reachable_insertHost h1 (by decide +kernel) 1
  exact ⟨reachable_consistent h2 ⟨0⟩, by decide +kernel⟩

end ValueCore
