import ValueCore.Proofs.Operations.Comparisons
import ValueCore.Proofs.Reachable
import ValueCore.Proofs.Table.Packing
import ValueCore.Proofs.Upkeep

/-!
# Tables of moderate load

A table grows before an entry is put into it once it is overloaded, so it is never much more than that: it has eight entries
at most, or 6.5 on average on each chain (`Table.Moderate`). That bound is what one doubling relieves: a table within it is
not overloaded when it has twice as many chains (`overloaded_double`). It is kept by whatever happens to a table, and so it
holds in every world that a program comes to, in the middle of an operation too (`Midway.moderate`).

| what happens to a table | its entries | its chains | its storage |
| --- | --- | --- | --- |
| a new entry | one more, of a table that was not overloaded | the same | the same |
| another value, a removal, `clear` | no more | the same | the same |
| its storage is doubled | the same | the same | refused from `2 * maxHeads` buckets on |
| it grows | the same | twice as many | what `grownCapacity` asks for |
| it is made, or sized while it is empty | none | up to `maxHeads` | one bucket for each chain |
-/

namespace ValueCore

open World

variable {ε : Type} {I : Inventory ε} {w w' u : World ε}

/-! ## Load -/

/-- Where one more entry may be put in without growth the bound holds with it too. There the entries are no more than a whole
number of chains admits, and that number is even unless there is one chain. -/
theorem load_succ {count heads : Nat} (hp : ∃ k ≤ 24, heads = 2 ^ k) (h : overloaded count heads = false) :
    2 * (count + 1) ≤ max 16 (13 * heads) := by
  simp only [overloaded, Bool.and_eq_false_iff, decide_eq_false_iff_not] at h
  obtain ⟨_ | k, -, rfl⟩ := hp
  · omega
  · rw [Nat.pow_succ] at h ⊢
    omega

/-- **One doubling is enough.** -/
theorem overloaded_double {count heads : Nat} (hheads : 0 < heads) (h : 2 * count ≤ max 16 (13 * heads)) :
    overloaded count (2 * heads) = false := by
  simp only [overloaded, Bool.and_eq_false_iff, decide_eq_false_iff_not]
  omega

namespace Table

variable {κ : Type} {T T' : Table κ}

/-- No more entries than 6.5 on each chain, or eight, and a storage within its limit. -/
structure Moderate (T : Table κ) : Prop where
  load : 2 * T.length ≤ max 16 (13 * T.heads)
  capacity_le : T.capacity ≤ 4 * maxHeads

theorem Moderate.within (h : Moderate T) (hw : Within T T') : Moderate T' := by
  have hload := h.load
  have hlength := hw.length
  exact ⟨by rw [hw.heads]; omega, hw.capacity ▸ h.capacity_le⟩

theorem Moderate.same (h : Moderate T) (hs : SameStore T T') : Moderate T' := hs ▸ h.within (.flags T _ _)

/-- Without entries any number of chains up to the limit will do. -/
theorem moderate_of_empty (hlength : T.length = 0) (hcapacity : T.capacity ≤ maxHeads) : Moderate T :=
  ⟨by rw [hlength]; exact Nat.zero_le _, by omega⟩

theorem Moderate.append (h : Sound T) (hm : Moderate T) (ho : overloaded T.length T.heads = false) (i : Nat) (hash : UInt32)
    (key : κ) (v : Value) : Moderate (T.append i hash key v) := by
  obtain ⟨hheads, -, hcapacity, -⟩ := append_frame (t := T) i hash key v
  obtain ⟨-, -, hlength⟩ := append_ends (t := T) i hash key v
  exact ⟨by rw [hheads, hlength]; exact load_succ h.heads_pow ho, hcapacity ▸ hm.capacity_le⟩

theorem length_grown (h : Sound T) (hmax : T.heads < maxHeads) (block : Option Block) :
    (T.grown block).length = T.length := by
  obtain ⟨hs, -, hrecords, -⟩ := h.grown hmax block
  rw [← hs.length_records, hrecords, h.length_records]

theorem Moderate.length_le (h : Sound T) (hm : Moderate T) : 2 * T.length ≤ 13 * maxHeads := by
  have hload := hm.load
  have hheads := le_maxHeads h.heads_pow
  simp only [maxHeads] at hheads ⊢
  omega

/-- What a table asks for when it grows can be measured in a word. -/
theorem Moderate.tooBig_grown {kind : KeyKind} {T : Table kind.Key} (h : Sound T) (hm : Moderate T) :
    Memory.tooBig T.grownCapacity kind.bucketBytes = false := by
  refine tooBig_buckets kind ?_
  have hheads := le_maxHeads h.heads_pow
  have hload := hm.load
  simp only [grownCapacity, bucketSize, maxHeads] at hheads ⊢
  omega

theorem Moderate.grownCapacity_le (hm : Moderate T) (hmax : T.heads < maxHeads) : T.grownCapacity ≤ 4 * maxHeads := by
  have hload := hm.load
  simp only [grownCapacity, bucketSize, maxHeads] at hmax ⊢
  omega

theorem Moderate.grown (hm : Moderate T) (h : Sound T) (hmax : T.heads < maxHeads) (block : Option Block) :
    Moderate (T.grown block) := by
  obtain ⟨-, -, -, hheads, hcapacity, -, -⟩ := h.grown hmax block
  refine ⟨?_, hcapacity ▸ hm.grownCapacity_le hmax⟩
  have hload := hm.load
  rw [hheads, length_grown h hmax]
  omega

/-- **A change keeps the bound.** -/
theorem Change.moderate (h : Sound T) (hm : Moderate T) (hc : Change T T') : Moderate T' := by
  cases hc with
  | overwrite i v _ => exact hm.within (.overwrite i v)
  | fill i hash key v ho _ _ => exact hm.append h ho i hash key v
  | extend hash key v ho hhash hfull hroom =>
    obtain ⟨hheads, hcapacity, -, -, hlength, -⟩ := addOverflow_frame (t := T) (T.home hash)
    obtain ⟨aheads, -, acapacity, -⟩ := append_frame (t := T.addOverflow (T.home hash)) (bucketSize * T.used) hash key v
    obtain ⟨-, -, alength⟩ := append_ends (t := T.addOverflow (T.home hash)) (bucketSize * T.used) hash key v
    refine ⟨?_, by rw [acapacity, hcapacity]; exact hm.capacity_le⟩
    rw [aheads, hheads, alength, hlength]
    exact load_succ h.heads_pow ho
  | remove i _ => exact hm.within (.remove i)
  | clear => exact hm.within .cleared
  | double block _ hlt =>
    refine ⟨hm.load, ?_⟩
    show 2 * T.capacity ≤ 4 * maxHeads
    omega
  | grow block _ hmax => exact hm.grown h hmax block

theorem Placed.moderate (h : Sound T) (hm : Moderate T) {hash : UInt32} {key : κ} {v : Value} (hhash : hash ≠ 0)
    (ho : overloaded T.length T.heads = false) (hp : Placed T hash key v T') : Moderate T' := by
  rcases hp.changes h hhash ho with hc | ⟨block, hc, hc'⟩
  · exact hc.moderate h hm
  · exact hc'.moderate (hc.sound h) (hc.moderate h hm)

/-- **A table that has grown is not overloaded.** -/
theorem Moderate.relieved (h : Sound T) (hm : Moderate T) (hmax : T.heads < maxHeads) (block : Option Block) :
    overloaded (T.grown block).length (T.grown block).heads = false := by
  obtain ⟨-, -, -, hheads, -⟩ := h.grown hmax block
  rw [hheads, length_grown h hmax]
  exact overloaded_double h.heads_pos hm.load

end Table

/-! ## Worlds -/

namespace World

/-- All tables are within the bound. -/
def Moderate (w : World ε) : Prop := ∀ r : TableRef, (w.table r.2).Moderate

theorem Bare.moderate (hb : w.Bare I) : w.Moderate := fun r => by
  rw [hb.table_eq r.2]
  exact Table.moderate_of_empty rfl (Nat.one_le_two_pow)

theorem Moderate.same (h : w.Moderate) (hs : ∀ r : TableRef, (w.table r.2).SameStore (w'.table r.2)) : w'.Moderate :=
  fun r => (h r).same (hs r)

theorem Step.moderate {n : Nat} (h : w.Sound I) (hm : w.Moderate) (hs : Step I n w w') : w'.Moderate := by
  intro r
  rcases hs.change_or_size r.2 with hsame | hc | ⟨hlen, heads, block, hp, hsized⟩
  · exact (hm r).same hsame
  · exact hc.moderate (h.tables r.2) (hm r)
  · rw [hsized]
    exact Table.moderate_of_empty hlen (Table.le_maxHeads hp)

/-- **Whatever happens keeps all tables within the bound.** -/
theorem Evolves.moderate {n : Nat} (he : Evolves I n w w') : w.Sound I → w.Moderate → w'.Moderate := by
  induction he with
  | refl => exact fun _ hm => hm
  | step hs => exact fun h hm => hs.moderate h hm
  | trans he _ ih ih' => exact fun h hm => ih' (he.sound h) (ih h hm)
  | bracket t ht _ he ih =>
    intro h hm
    have htl := he.within.has t ((has_modifyTable t _ t).2 ht)
    have hheld := ih (h.held t ht) (hm.same fun r => same_held t ht r.2)
    exact hheld.same fun r => same_letGo t htl r.2

theorem During.moderate (h : w.Sound I) (hm : w.Moderate) (hd : During I w u) : u.Moderate := by
  induction hd with
  | start => exact hm
  | run hd he ih => exact he.moderate (hd.sound h) ih
  | hold t _ ht ih => exact ih.same fun r => same_held t ht r.2

end World

/-- A world between operations, or in the middle of some. -/
def Midway (I : Inventory ε) (w : World ε) : Prop := ∃ w₀, Reachable I w₀ ∧ During I w₀ w

theorem Midway.sound (h : Midway I w) : w.Sound I := by
  obtain ⟨w₀, hr, hd⟩ := h
  exact hd.sound hr.sound

/-- **No table is loaded much beyond what lets it grow**, in any world that a program comes to. -/
theorem Midway.moderate (h : Midway I w) : w.Moderate := by
  obtain ⟨w₀, ⟨wb, hb, ha⟩, hd⟩ := h
  have he := ha.evolves (fun _ hc => hc.respects) hb.sound
  exact hd.moderate (he.sound hb.sound) (he.moderate hb.sound hb.moderate)

end ValueCore
