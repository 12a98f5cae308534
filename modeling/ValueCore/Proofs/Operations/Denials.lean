import ValueCore.Proofs.Operations.Refusals
import ValueCore.Proofs.Operations.Tables
import ValueCore.Proofs.Table.Packing

/-!
# Tables and entries that are denied

A table that is sized for a number of entries is made, unless the limit on the size of tables does not admit so many or a
request is refused (`denied_of_newTable`).

Another entry may need more storage: twice as many chains when the table is overloaded, else another bucket when its chain is
full. It is denied for one of two reasons (`World.Denied`). The allocator refused a request that was made for it, or the limit
admits no more (`Table.Overflows`). Nothing else can go wrong with a growing table (`denied_of_growTable`)
or with an entry that is put in its place (`denied_of_placed`), as long as the storage asked for can be measured in a word.

| what is needed | admitted up to |
| --- | --- |
| more chains | `maxHeads` of them |
| more buckets | `4 * maxHeads` of them |
-/

namespace ValueCore

open World

variable {ε : Type} {w u v : World ε} {kind : KeyKind} {t : TableId kind} {hash : UInt32}

/-- Another entry under this hash needs more storage than the limit admits. -/
def Table.Overflows {κ : Type} (T : Table κ) (hash : UInt32) : Prop :=
  if overloaded T.length T.heads then maxHeads ≤ T.heads
  else T.vacancy (T.home hash) = none ∧ T.used = T.capacity ∧ 2 * maxHeads ≤ T.capacity

/-- Why a table is not given another entry between two worlds: a request was refused, or the table is at its limit. -/
def World.Denied (w : World ε) (t : TableId kind) (hash : UInt32) (u : World ε) : Prop :=
  w.memory.Refused u.memory ∨ (w.table t).Overflows hash

theorem memory_modifyTable (t : TableId kind) (f : Table kind.Key → Table kind.Key) :
    (w.modifyTable t f).memory = w.memory := by cases kind <;> rfl

theorem KeyKind.bucketBytes_le (kind : KeyKind) : 0 < kind.bucketBytes ∧ kind.bucketBytes ≤ 392 := by
  cases kind <;> decide

/-- No array of buckets within the limit is too big. -/
theorem tooBig_buckets (kind : KeyKind) {count : Nat} (h : count ≤ 4 * maxHeads) :
    Memory.tooBig count kind.bucketBytes = false := by
  obtain ⟨hpos, hle⟩ := kind.bucketBytes_le
  refine Memory.tooBig_eq_false hpos (Nat.lt_of_le_of_lt (Nat.mul_le_mul_left _ hle) ?_)
  simp only [maxHeads, Memory.wordSpan] at *
  omega

/-! ## New tables -/

/-- The block for chains that were chosen for some number of entries is not too big. -/
theorem spends_allocateHeads {heads hint : Nat} (h : headsFor hint = some heads) : w.Spends (allocateHeads kind heads) := by
  unfold allocateHeads
  split
  · have hmax := (headsFor_fits h).2
    exact spends_allocateArray (tooBig_buckets kind (by omega))
  · exact .pure none

theorem spends_newTable {heads : Nat} {hint : UInt32} (h : headsFor hint.toNat = some heads) :
    w.Spends (newTable kind hint) ∧ ∀ t v, newTable kind hint w = (.ok t, v) →
      ∃ (u : World ε) (block : Option Block), (t, v) = u.addTable kind (.withStorage heads heads block) := by
  have hchoose := run_chooseHeads_some h w
  unfold newTable
  refine ⟨.read hchoose ((spends_allocateHeads h).bind fun block v _ => .of_ok (run_modifyGet _ v) ?_), fun t v hr => ?_⟩
  · cases kind <;> rfl
  · rw [run_bind_ok hchoose] at hr
    rcases (asks_allocateHeads (w := w) kind heads).outcome with ⟨u, _, ha⟩ | ⟨u, block, _, ha⟩
    · rw [run_bind_error ha] at hr
      cases hr
    · rw [run_bind_ok ha, run_modifyGet] at hr
      cases hr
      exact ⟨u, block, rfl⟩

/-- **A table that is not made** was sized for too many entries, or a request was refused. -/
theorem denied_of_newTable {hint : UInt32} {e : Failure} (hr : newTable kind hint w = (.error e, u)) :
    w.memory.Refused u.memory ∨ headsFor hint.toNat = none := by
  cases h : headsFor hint.toNat with
  | none => exact .inr rfl
  | some heads =>
    have hspends : w.Spends (newTable kind hint) := (spends_newTable h).1
    have hrefused := hspends.refused e
    rw [hr] at hrefused
    exact .inl (hrefused rfl)

/-! ## More chains -/

theorem spends_growTable (hmax : (w.table t).heads < maxHeads)
    (hbuckets : Memory.tooBig (w.table t).grownCapacity kind.bucketBytes = false) : w.Spends (growTable t) := by
  unfold growTable
  refine .read (run_readTable t w) ?_
  rw [if_neg (Nat.not_le_of_lt hmax)]
  refine (spends_allocateArray hbuckets).bind fun block v _ => ?_
  refine .bind (.of_ok (run_updateTable t (·.grown block) v) (memory_modifyTable t _)) fun _ x _ => ?_
  exact ⟨Memory.later_releaseOption _ _, fun e he => by cases he⟩

/-- **A table that cannot grow** is at its limit, or a request was refused. -/
theorem denied_of_growTable (ho : overloaded (w.table t).length (w.table t).heads = true)
    (hbuckets : Memory.tooBig (w.table t).grownCapacity kind.bucketBytes = false) {e : Failure}
    (hr : growTable t w = (.error e, u)) : w.Denied t hash u := by
  by_cases hmax : maxHeads ≤ (w.table t).heads
  · exact .inr (by rw [Table.Overflows, if_pos ho]; exact hmax)
  · have hrefused := (spends_growTable (Nat.lt_of_not_le hmax) hbuckets).refused e
    rw [hr] at hrefused
    exact .inl (hrefused rfl)

/-! ## More buckets -/

theorem spends_reserveBucket (hlimit : (w.table t).used = (w.table t).capacity → (w.table t).capacity < 2 * maxHeads) :
    w.Spends (reserveBucket t) := by
  unfold reserveBucket
  refine .read (run_readTable t w) ?_
  split
  · rename_i hfull
    have hcapacity := hlimit hfull
    have hbuckets := tooBig_buckets kind (by omega : 2 * (w.table t).capacity ≤ 4 * maxHeads)
    rw [if_neg (Nat.not_le_of_lt hcapacity)]
    have hdone : ∀ (block : Option Block) (v : World ε), v.Spends (updateTable t (·.doubled block)) :=
      fun block v => .of_ok (run_updateTable t _ v) (memory_modifyTable t _)
    cases (w.table t).block with
    | none => exact (spends_allocateArray hbuckets).bind fun block v _ => hdone block v
    | some b => exact (spends_reallocateArray hbuckets).bind fun block v _ => hdone block v
  · exact .pure ()

theorem spends_roomFor (hlimit : (w.table t).vacancy ((w.table t).home hash) = none →
    (w.table t).used = (w.table t).capacity → (w.table t).capacity < 2 * maxHeads) : w.Spends (roomFor t hash) := by
  unfold roomFor
  refine .read (run_readTable t w) ?_
  dsimp only
  cases hvac : (w.table t).vacancy ((w.table t).home hash) with
  | some i => exact .pure i
  | none => exact (spends_reserveBucket (hlimit hvac)).bind fun _ v _ => .of_ok rfl (memory_modifyTable t _)

/-- **An entry that cannot be put in its place** finds the storage at its limit, or a request was refused. -/
theorem denied_of_placed {key : kind.Key} {value : Value} (ho : overloaded (w.table t).length (w.table t).heads = false)
    {e : Failure} (hr : (roomFor t hash >>= fun i => updateTable t (·.append i hash key value)) w = (.error e, u)) :
    w.Denied t hash u := by
  by_cases hlimit : (w.table t).vacancy ((w.table t).home hash) = none ∧ (w.table t).used = (w.table t).capacity ∧
      2 * maxHeads ≤ (w.table t).capacity
  · exact .inr (by rw [Table.Overflows, if_neg (by simp [ho])]; exact hlimit)
  · have hroom : w.Spends (roomFor t hash) := spends_roomFor fun hvac hfull =>
      Nat.lt_of_not_le fun hle => hlimit ⟨hvac, hfull, hle⟩
    have hspends : w.Spends (roomFor t hash >>= fun i => updateTable t (·.append i hash key value)) :=
      hroom.bind fun i v _ => .of_ok (run_updateTable t _ v) (memory_modifyTable t _)
    have hrefused := hspends.refused e
    rw [hr] at hrefused
    exact .inl (hrefused rfl)

end ValueCore
