import Mathlib.Algebra.BigOperators.Group.Multiset.Basic
import Mathlib.Algebra.Order.Group.Multiset
import ValueCore.Close
import ValueCore.Proofs.Run
import ValueCore.Proofs.World.Tables

/-!
# Accounts

The ledger of an allocator is in order when the blocks that are live are those that somebody holds, each at the size it was
granted and each held once, when the total is what they come to, and when nothing was ever given back that was not live
(`Memory.Tallies`). Who holds them is a multiset of blocks with their sizes. A request that is granted adds to it, a block
that is given back is taken out of it, and there is nothing else to a ledger.

The block of a world itself is not part of the total, so the bytes that are kept apart from it are a parameter.
-/

namespace ValueCore

/-- A block with its size. -/
abbrev Holding := Block × Nat

/-- What is held by something that is in a block, if it is in one. -/
def inBlock (b : Option Block) (bytes : Nat) : Multiset Holding := ↑(b.map (·, bytes)).toList

@[simp] theorem inBlock_none (bytes : Nat) : inBlock none bytes = 0 := rfl

@[simp] theorem inBlock_some (b : Block) (bytes : Nat) : inBlock (some b) bytes = {(b, bytes)} := rfl

namespace Memory

variable {m : Memory} {apart bytes : Nat} {held : Multiset Holding} {b : Block}

/-- The live blocks are the ones that are held. -/
structure Tallies (m : Memory) (apart : Nat) (held : Multiset Holding) : Prop where
  distinct : (held.map Prod.fst).Nodup
  live : ∀ b bytes, m.sizeOf? b = some bytes ↔ (b, bytes) ∈ held
  strays : m.strays = 0
  total : m.total + apart = ((held.map Prod.snd).sum : Nat)

theorem sizeOf?_push (granted : Array (Option Nat)) (b : Block) :
    ((granted.push (some bytes))[b]?).join = if b = granted.size then some bytes else granted[b]?.join := by
  rw [Array.getElem?_push]
  split <;> rfl

theorem sizeOf?_set (granted : Array (Option Nat)) {b c : Block} {size : Option Nat} (hb : b < granted.size) :
    ((granted.setIfInBounds b size)[c]?).join = if c = b then size else granted[c]?.join := by
  rw [Array.getElem?_setIfInBounds]
  split
  · rename_i hc
    subst hc
    rw [if_pos rfl]
    rfl
  · rename_i hc
    rw [if_neg (Ne.symm hc)]

/-- A live block has been granted. -/
theorem lt_of_sizeOf? (h : m.sizeOf? b = some bytes) : b < m.blocks.size := by
  by_contra hge
  rw [sizeOf?, Array.getElem?_eq_none (Nat.le_of_not_lt hge)] at h
  cases h

namespace Tallies

theorem not_mem (h : m.Tallies apart ((b, bytes) ::ₘ held)) (size : Nat) : (b, size) ∉ held := by
  intro hm
  have hd := h.distinct
  rw [Multiset.map_cons, Multiset.nodup_cons] at hd
  exact hd.1 (Multiset.mem_map.2 ⟨(b, size), hm, rfl⟩)

/-- A request that is granted adds a block. -/
theorem granted (h : m.Tallies apart held) (hr : (m.request bytes).1 = some b) :
    (m.request bytes).2.Tallies apart ((b, bytes) ::ₘ held) := by
  unfold request at hr ⊢
  dsimp only at hr ⊢
  split at hr
  · rename_i ha
    rw [if_pos ha]
    obtain rfl := Option.some.inj hr
    have hnew : ∀ size, (m.blocks.size, size) ∉ held := fun size hm =>
      Nat.lt_irrefl _ (lt_of_sizeOf? ((h.live _ _).2 hm))
    refine ⟨?_, fun c size => ?_, h.strays, ?_⟩
    · rw [Multiset.map_cons, Multiset.nodup_cons]
      refine ⟨fun hm => ?_, h.distinct⟩
      obtain ⟨⟨c, size⟩, hm, rfl⟩ := Multiset.mem_map.1 hm
      exact hnew size hm
    · rw [Multiset.mem_cons, ← h.live c size, sizeOf?, sizeOf?_push]
      by_cases hc : c = m.blocks.size
      · subst hc
        have hnone : m.sizeOf? m.blocks.size ≠ some size := fun hs => hnew size ((h.live _ _).1 hs)
        rw [if_pos rfl]
        simp [hnone, eq_comm]
      · rw [if_neg hc]
        simp [hc, sizeOf?]
    · have ht := h.total
      rw [Multiset.map_cons, Multiset.sum_cons]
      show m.total + bytes + apart = _
      omega
  · cases hr

/-- A request that is refused adds nothing. -/
theorem refused (h : m.Tallies apart held) (hr : (m.request bytes).1 = none) :
    (m.request bytes).2.Tallies apart held := by
  unfold request at hr ⊢
  dsimp only at hr ⊢
  split at hr
  · cases hr
  · rename_i ha
    rw [if_neg ha]
    exact ⟨h.distinct, h.live, h.strays, h.total⟩

/-- A block that is held is given back. -/
theorem release (h : m.Tallies apart ((b, bytes) ::ₘ held)) : (m.release b bytes).Tallies apart held := by
  have hlive : m.sizeOf? b = some bytes := (h.live b bytes).2 (Multiset.mem_cons_self _ _)
  refine ⟨?_, fun c size => ?_, ?_, ?_⟩
  · have hd := h.distinct
    rw [Multiset.map_cons, Multiset.nodup_cons] at hd
    exact hd.2
  · rw [sizeOf?, Memory.release, sizeOf?_set _ (lt_of_sizeOf? hlive)]
    by_cases hc : c = b
    · subst hc
      simp [h.not_mem size]
    · rw [if_neg hc]
      have hold := h.live c size
      rw [Multiset.mem_cons] at hold
      simpa [hc, sizeOf?] using hold
  · show (if m.sizeOf? b = some bytes then m.strays else m.strays + 1) = 0
    rw [if_pos hlive, h.strays]
  · have ht := h.total
    rw [Multiset.map_cons, Multiset.sum_cons] at ht
    show m.total - bytes + apart = _
    omega

/-- A block that is held gets another size. -/
theorem resized {size : Nat} (h : m.Tallies apart ((b, bytes) ::ₘ held)) (hr : (m.resize b bytes size).1 = true) :
    (m.resize b bytes size).2.Tallies apart ((b, size) ::ₘ held) := by
  have hlive : m.sizeOf? b = some bytes := (h.live b bytes).2 (Multiset.mem_cons_self _ _)
  unfold resize at hr ⊢
  dsimp only at hr ⊢
  split at hr
  · rename_i ha
    rw [if_pos ha, if_pos hlive]
    refine ⟨by simpa only [Multiset.map_cons] using h.distinct, fun c other => ?_, h.strays, ?_⟩
    · rw [sizeOf?, sizeOf?_set _ (lt_of_sizeOf? hlive), Multiset.mem_cons]
      by_cases hc : c = b
      · subst hc
        simp [h.not_mem other, eq_comm]
      · rw [if_neg hc]
        have hold := h.live c other
        rw [Multiset.mem_cons] at hold
        simpa [hc, sizeOf?] using hold
    · have ht := h.total
      rw [Multiset.map_cons, Multiset.sum_cons] at ht ⊢
      show m.total + size - bytes + apart = _
      omega
  · cases hr

/-- A block whose size was to change keeps the one it has. -/
theorem unresized {old size : Nat} (h : m.Tallies apart held) (hr : (m.resize b old size).1 = false) :
    (m.resize b old size).2.Tallies apart held := by
  unfold resize at hr ⊢
  dsimp only at hr ⊢
  split at hr
  · cases hr
  · rename_i ha
    rw [if_neg ha]
    exact ⟨h.distinct, h.live, h.strays, h.total⟩

/-- What is held in a block is given back, if there is one. -/
theorem releaseOption {b : Option Block} (h : m.Tallies apart (inBlock b bytes + held)) :
    (m.releaseOption b bytes).Tallies apart held := by
  cases b with
  | none => simpa [Memory.releaseOption] using h
  | some b =>
    rw [inBlock_some, Multiset.singleton_add] at h
    exact h.release

end Tallies

end Memory

end ValueCore
