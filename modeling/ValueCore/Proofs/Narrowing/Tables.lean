import ValueCore.Proofs.Rebuilding
import ValueCore.Proofs.Retries

/-!
# Tables in signed 32-bit integers

The numbers of buckets, entries and slots that a table goes by are to be kept in signed 32-bit integers. Here whatever
computes such a number does so `narrow`: it fails if the integer is not the number. In namespace `Narrow` are the operations
that size a table, open a bucket, grow a table and insert into it, written in this way. In a world in which all tables are of
moderate load none of them ever fails on that account; so they do what the operations do.

| number | computed by | at most |
| --- | --- | --- |
| chains | doubling, when a table is sized or grows; refused from `maxHeads` on | 2²⁴ |
| buckets | doubling, when all are in use; refused from `2 * maxHeads` on | 2²⁶ |
| | growth: twice the chains, one for every eight entries, and one | |
| slots | eight times a bucket, and up to seven more | 2²⁹ |
-/

namespace ValueCore

open World

variable {ε : Type} {I : Inventory ε} {w u : World ε} {kind : KeyKind} {t : TableId kind}

/-! ## Signed integers -/

/-- Does a number stay the same when it is converted to a signed 32-bit integer? -/
def fits (n : Nat) : Bool := (Int32.ofNat n).toInt == n

/-- The number, converted to a signed 32-bit integer, if it stays the same. -/
def narrow (n : Nat) : Run ε Nat := if fits n then pure n else throw (.misuse (ascii "integer overflow"))

theorem fits_iff {n : Nat} : fits n = true ↔ n < 2 ^ 31 := by
  constructor
  · intro h
    have heq : (Int32.ofNat n).toInt = n := eq_of_beq h
    have hlt := Int32.toInt_lt (Int32.ofNat n)
    omega
  · intro h
    rw [fits, Int32.toInt_ofNat_of_lt h]
    exact beq_self_eq_true _

/-- Thirty-two for each of the chains that there may be, and one more. -/
theorem lt_of_le_maxHeads {n : Nat} (h : n ≤ 32 * maxHeads + 1) : n < 2 ^ 31 := by
  simp only [maxHeads] at h
  omega

theorem run_narrow {n : Nat} (h : n < 2 ^ 31) (w : World ε) : narrow n w = (.ok n, w) := by
  rw [narrow, if_pos (fits_iff.2 h)]
  rfl

/-! ## Numbers of a table -/

namespace Table

variable {κ : Type} {T : Table κ}

/-- All that a table counts, and all its slots, are within the range of signed 32-bit integers. -/
structure InRange (T : Table κ) : Prop where
  heads : T.heads < 2 ^ 31
  used : T.used < 2 ^ 31
  capacity : T.capacity < 2 ^ 31
  length : T.length < 2 ^ 31
  slots : ∀ c < T.heads, ∀ i ∈ T.chainSlots c, i < 2 ^ 31

theorem Moderate.used_le (h : Storage T) (hm : Moderate T) : T.used ≤ 4 * maxHeads := h.used_le.trans hm.capacity_le

/-- The slots of a bucket. -/
theorem Moderate.slot_lt (h : Storage T) (hm : Moderate T) {i : Nat} (hi : i < bucketSize * T.used) : i < 2 ^ 31 := by
  have hused := hm.used_le h
  simp only [bucketSize] at hi
  exact lt_of_le_maxHeads (by omega)

theorem Moderate.inRange (h : Storage T) (hm : Moderate T) : InRange T := by
  have hheads := le_maxHeads h.heads_pow
  have hused := hm.used_le h
  have hload := hm.load
  have hcapacity := hm.capacity_le
  have hpos := h.heads_pos
  constructor
  · exact lt_of_le_maxHeads (by omega)
  · exact lt_of_le_maxHeads (by omega)
  · exact lt_of_le_maxHeads (by omega)
  · exact lt_of_le_maxHeads (by omega)
  · intro c hc i hi
    exact hm.slot_lt h (h.slot_lt hc hi)

/-- Puts an entry into a table that is being rebuilt. -/
def narrowReinsert (T : Table κ) (e : Entry κ) : Option (Table κ) :=
  match T.emptySlot (T.lastBucket (T.home e.hash)) with
  | some i => if fits i then some (T.append i e.hash e.key e.value) else none
  | none =>
    let bucket := T.used
    if fits (bucket + 1) && fits (bucketSize * bucket) then
      some ((T.addOverflow (T.home e.hash)).append (bucketSize * bucket) e.hash e.key e.value)
    else none

theorem narrowReinsert_eq (h : Sound T) (hp : Packed T) (e : Entry κ) {n : Nat} (hcap : T.heads + n / bucketSize < T.capacity)
    (hlen : T.length < n) (hle : T.capacity ≤ 4 * maxHeads) : T.narrowReinsert e = some (T.reinsert e) := by
  have hhome := h.home_lt e.hash
  have hused := h.used_le
  unfold narrowReinsert reinsert
  dsimp only
  cases hi : T.emptySlot (T.lastBucket (T.home e.hash)) with
  | some i =>
    have hmem : i ∈ T.chainSlots (T.home e.hash) := mem_chainSlots.2 ((emptySlot_eq_some hi).1 ▸ lastBucket_mem _)
    have hlt := h.slot_lt hhome hmem
    simp only [bucketSize] at hlt
    have hrange : i < 2 ^ 31 := lt_of_le_maxHeads (by omega)
    exact if_pos (fits_iff.2 hrange)
  | none =>
    have hroom := hp.room h hcap hlen hhome (emptySlot_eq_none hi)
    have hnext : fits (T.used + 1) = true := fits_iff.2 (lt_of_le_maxHeads (by omega))
    have hbucket : fits (bucketSize * T.used) = true := by
      simp only [bucketSize]
      exact fits_iff.2 (lt_of_le_maxHeads (by omega))
    have hboth : (fits (T.used + 1) && fits (bucketSize * T.used)) = true := by
      rw [hnext, hbucket]
      rfl
    exact if_pos hboth

/-- The table with its entries in `heads` chains and a storage of `capacity` buckets. -/
def narrowGrown (T : Table κ) (heads capacity : Nat) (block : Option Block) : Option (Table κ) :=
  T.entries.foldlM narrowReinsert
    { (withStorage heads capacity block : Table κ) with holds := T.holds, frozen := T.frozen }

theorem narrowGrown_eq (h : Sound T) (hm : Moderate T) (hmax : T.heads < maxHeads) (block : Option Block) :
    T.narrowGrown (2 * T.heads) T.grownCapacity block = some (T.grown block) := by
  refine h.foldlM_grown hmax block fun {U} {e} hs hp hheads hcapacity hlen => narrowReinsert_eq hs hp e ?_ hlen ?_
  · rw [hheads, hcapacity]
    exact Nat.lt_succ_self _
  · rw [hcapacity]
    exact hm.grownCapacity_le hmax

end Table

/-! ## Operations -/

namespace Narrow

/-- `ValueCore.headsFrom`, with the fault. -/
def headsFrom (hint : Nat) : Nat → Nat → Run ε Nat
  | 0, heads => if overloaded hint heads then raise .tableOverflow else pure heads
  | fuel + 1, heads => do
    if overloaded hint heads then
      let doubled ← narrow (2 * heads)
      headsFrom hint fuel doubled
    else pure heads

def chooseHeads (hint : UInt32) : Run ε Nat := headsFrom hint.toNat 24 1

def newTable (kind : KeyKind) (hint : UInt32) : Run ε (TableId kind) := do
  let heads ← chooseHeads hint
  let block ← allocateHeads kind heads
  modifyGet (·.addTable kind (Table.withStorage heads heads block))

def resizeTable (t : TableId kind) (hint : UInt32) : Run ε Unit := do
  let heads ← chooseHeads hint
  let block ← allocateHeads kind heads
  let old ← readTable t
  release old.block (old.capacity * kind.bucketBytes)
  updateTable t (·.resized heads block)

def growTable (t : TableId kind) : Run ε Unit := do
  let table ← readTable t
  if maxHeads ≤ table.heads then raise .tableOverflow
  let heads ← narrow (2 * table.heads)
  let full ← narrow (table.length / bucketSize)
  let room ← narrow (heads + full + 1)
  let capacity := table.capacity
  let old := table.block
  let block ← allocateArray room kind.bucketBytes
  updateTable? t (·.narrowGrown heads room block)
  release old (capacity * kind.bucketBytes)

def reserveBucket (t : TableId kind) : Run ε Unit := do
  let table ← readTable t
  if table.used = table.capacity then
    if 2 * maxHeads ≤ table.capacity then raise .tableOverflow
    let doubled ← narrow (2 * table.capacity)
    let block ← match table.block with
      | none => allocateArray doubled kind.bucketBytes
      | some _ => reallocateArray table.block table.capacity doubled kind.bucketBytes
    updateTable t (·.doubled block)

def roomFor (t : TableId kind) (hash : UInt32) : Run ε Nat := do
  let table ← readTable t
  let head := table.home hash
  match table.vacancy head with
  | some i => narrow i
  | none =>
    reserveBucket t
    let bucket := (← readTable t).used
    let _ ← narrow (bucket + 1)
    updateTable t (·.addOverflow head)
    narrow (bucketSize * bucket)

def insertHashed (keying : Keying ε kind.Key) (t : TableId kind) (key : kind.Key) (value : Value)
    (hash : UInt32) : Nat → Run ε Unit
  | 0 => throw .exhausted
  | fuel + 1 => do
    let found ← scan keying t key hash
    checkMutable t .insert
    match found with
    | some i =>
      let i ← narrow i
      updateTable t (·.overwrite i value)
    | none =>
      let table ← readTable t
      if overloaded table.length table.heads then
        growTable t
        insertHashed keying t key value hash fuel
      else
        let i ← roomFor t hash
        updateTable t (·.append i hash key value)

def insert (keying : Keying ε kind.Key) (t : TableId kind) (key : kind.Key) (value : Value) : Run ε Unit := do
  checkMutable t .insert
  let hash ← keying.hash key
  insertHashed keying t key value (storedHash hash) 26

/-! ### Sizing -/

/-- The doubling of the chains is refused before it leaves the range. -/
theorem headsFrom_eq (hint : Nat) : ∀ {fuel heads : Nat} (w : World ε), 2 ^ fuel * heads ≤ maxHeads →
    headsFrom hint fuel heads w =
      (match ValueCore.headsFrom hint fuel heads with
      | some heads => pure heads
      | none => raise .tableOverflow : Run ε Nat) w
  | 0, heads, w, _ => by
    unfold headsFrom ValueCore.headsFrom
    split <;> rfl
  | fuel + 1, heads, w, hle => by
    rw [Nat.pow_succ, Nat.mul_assoc] at hle
    -- the doublings that are left do not go beyond the limit, so this one does not
    have hdouble : 2 * heads ≤ maxHeads := (Nat.le_mul_of_pos_left _ (Nat.two_pow_pos fuel)).trans hle
    have hlt : 2 * heads < 2 ^ 31 := lt_of_le_maxHeads (by omega)
    unfold headsFrom ValueCore.headsFrom
    split
    · rw [run_bind_ok (run_narrow hlt w)]
      exact headsFrom_eq hint w hle
    · rfl

theorem chooseHeads_eq (hint : UInt32) : (chooseHeads hint : Run ε Nat) = ValueCore.chooseHeads hint :=
  funext fun w => headsFrom_eq hint.toNat w (Nat.le_refl _)

theorem newTable_eq (kind : KeyKind) (hint : UInt32) : (newTable kind hint : Run ε _) = ValueCore.newTable kind hint := by
  unfold newTable ValueCore.newTable
  rw [chooseHeads_eq]

theorem resizeTable_eq (t : TableId kind) (hint : UInt32) :
    (resizeTable t hint : Run ε Unit) = ValueCore.resizeTable t hint := by
  unfold resizeTable ValueCore.resizeTable
  rw [chooseHeads_eq]

/-! ### Growing -/

theorem growTable_eq (h : (w.table t).Sound) (hm : (w.table t).Moderate) : growTable t w = ValueCore.growTable t w := by
  unfold growTable ValueCore.growTable
  rw [run_bind_ok (run_readTable t w), run_bind_ok (run_readTable t w)]
  dsimp only
  split
  · exact run_bind_congr rfl fun _ _ hr => by cases hr
  · rename_i hmax
    have hmax := Nat.lt_of_not_le hmax
    have hle := hm.grownCapacity_le hmax
    have hroom : (w.table t).grownCapacity < 2 ^ 31 := lt_of_le_maxHeads (by omega)
    have hsum : 2 * (w.table t).heads + ((w.table t).length / bucketSize + 1) < 2 ^ 31 := Nat.add_assoc .. ▸ hroom
    have hheads := Nat.lt_of_le_of_lt (Nat.le_add_right _ _) hsum
    have hfull := Nat.lt_of_le_of_lt ((Nat.le_succ _).trans (Nat.le_add_left _ _)) hsum
    have hparts : 2 * (w.table t).heads + (w.table t).length / bucketSize + 1 < 2 ^ 31 := hroom
    rw [run_bind_ok (run_narrow hheads w), run_bind_ok (run_narrow hfull w), run_bind_ok (run_narrow hparts w)]
    refine run_bind_congr rfl fun block u hr => run_bind_congr (run_updateTable? ?_) fun _ _ _ => rfl
    have htable : u.table t = w.table t := by
      have halike := (asks_allocateArray (w := w) (w.table t).grownCapacity kind.bucketBytes).alike
      rw [hr] at halike
      exact halike.table t
    rw [htable]
    exact Table.narrowGrown_eq h hm hmax block

/-! ### Opening a bucket -/

theorem reserveBucket_eq (hm : (w.table t).Moderate) : reserveBucket t w = ValueCore.reserveBucket t w := by
  unfold reserveBucket ValueCore.reserveBucket
  rw [run_bind_ok (run_readTable t w), run_bind_ok (run_readTable t w)]
  have hcapacity := hm.capacity_le
  by_cases hfull : (w.table t).used = (w.table t).capacity
  · rw [if_pos hfull, if_pos hfull]
    dsimp only
    by_cases hlimit : 2 * maxHeads ≤ (w.table t).capacity
    · rw [if_pos hlimit, if_pos hlimit]
      exact run_bind_congr rfl fun _ _ hr => by cases hr
    · have hdoubled : 2 * (w.table t).capacity < 2 ^ 31 := lt_of_le_maxHeads (by omega)
      rw [if_neg hlimit, if_neg hlimit]
      refine (run_bind_ok (run_narrow hdoubled w) _).trans ?_
      cases (w.table t).block <;> rfl
  · rw [if_neg hfull, if_neg hfull]

/-- Where room for another bucket has been made the table is still moderate. -/
theorem moderate_reserveBucket (h : (w.table t).Sound) (hm : (w.table t).Moderate) (ht : w.Has t) {a : Unit}
    (hr : ValueCore.reserveBucket t w = (.ok a, u)) :
    (u.table t).Moderate ∧ (u.table t).used < (u.table t).capacity := by
  rcases run_reserveBucket t w with ⟨v, _, hv⟩ | ⟨hne, hv⟩ | ⟨v, block, hfull, hlt, hv, hrun⟩
  · cases hr.symm.trans hv
  · cases hr.symm.trans hv
    exact ⟨hm, Nat.lt_of_le_of_ne h.used_le hne⟩
  · cases hr.symm.trans hrun
    have hchange : Table.Change (w.table t) ((w.table t).doubled block) := .double block hfull hlt
    rw [table_modifyTable t _ (hv.has_iff.2 ht), hv.table t]
    refine ⟨hchange.moderate h hm, ?_⟩
    have hpos := h.heads_pos
    have hle := h.heads_le
    show (w.table t).used < 2 * (w.table t).capacity
    omega

theorem roomFor_eq (h : (w.table t).Sound) (hm : (w.table t).Moderate) (ht : w.Has t) (hash : UInt32) :
    roomFor t hash w = ValueCore.roomFor t hash w := by
  unfold roomFor ValueCore.roomFor
  rw [run_bind_ok (run_readTable t w), run_bind_ok (run_readTable t w)]
  dsimp only
  cases hi : (w.table t).vacancy ((w.table t).home hash) with
  | some i =>
    exact run_narrow (hm.slot_lt h.toStorage (h.slot_lt (h.home_lt hash) (Table.vacancy_eq_some hi).1)) w
  | none =>
    refine run_bind_congr (reserveBucket_eq hm) fun _ u hr => ?_
    obtain ⟨hmu, hroom⟩ := moderate_reserveBucket h hm ht hr
    have hcapacity := hmu.capacity_le
    have hnext : (u.table t).used + 1 < 2 ^ 31 := lt_of_le_maxHeads (by omega)
    rw [run_bind_ok (run_readTable t u), run_bind_ok (run_readTable t u), run_bind_ok (run_narrow hnext u)]
    refine run_bind_congr rfl fun _ x _ => run_narrow ?_ x
    simp only [bucketSize]
    exact lt_of_le_maxHeads (by omega)

/-! ### Inserting -/

section
variable {keying : Keying ε kind.Key} (hk : keying.Respects I) {key : kind.Key}
include hk

theorem insertHashed_eq (value : Value) (hash : UInt32) : ∀ (fuel : Nat) {w : World ε}, w.Sound I → w.Moderate → w.Has t →
    w.OwnsKey key → insertHashed keying t key value hash fuel w = ValueCore.insertHashed keying t key value hash fuel w
  | 0, _, _, _, _, _ => rfl
  | fuel + 1, w, h, hm, ht, hkey => by
    have hJ := steady_respects hk hash h ht hkey
    -- whatever the host does in the scan, all tables are moderate after it
    refine run_bind_congr rfl fun found v hs => run_bind_congr rfl fun _ v' hc => ?_
    obtain ⟨rfl, hf, hz⟩ := ok_checkMutable hc
    have hv : Evolves I 0 w v' := by
      have := hJ.scan .refl
      rwa [hs] at this
    have hsv := hv.sound h
    have hmv := hv.moderate h hm
    cases found with
    | some i =>
      have hi := ((h.tables t).live i).1 (hJ.found .refl hs)
      exact run_bind_ok (run_narrow ((hm ⟨kind, t⟩).slot_lt (h.tables t).toStorage hi.1) v') _
    | none =>
      dsimp only
      rw [run_bind_ok (run_readTable t v'), run_bind_ok (run_readTable t v')]
      split
      · rename_i ho
        refine run_bind_congr (growTable_eq (hsv.tables t) (hmv ⟨kind, t⟩)) fun _ u hg => ?_
        obtain ⟨hu, -, -⟩ := hJ.round .refl hs hf hz ho hg
        exact insertHashed_eq value hash fuel (hu.sound h) (hu.moderate h hm) (hu.within.has t ht) (hu.within.ownsKey hkey)
      · exact run_bind_congr (roomFor_eq (hsv.tables t) (hmv ⟨kind, t⟩) (hv.within.has t ht) hash) fun _ _ _ => rfl

theorem insert_eq (h : w.Sound I) (hm : w.Moderate) (ht : w.Has t) (hkey : w.OwnsKey key) (value : Value) :
    insert keying t key value w = ValueCore.insert keying t key value w := by
  refine run_bind_congr rfl fun _ v hc => run_bind_congr rfl fun hash u hr => ?_
  obtain ⟨rfl, -, -⟩ := ok_checkMutable hc
  have hu : Evolves I 0 v u := by
    have := hk.hash key h (Nat.zero_le _) hkey
    rwa [hr] at this
  exact insertHashed_eq hk value _ 26 (hu.sound h) (hu.moderate h hm) (hu.within.has t ht) (hu.within.ownsKey hkey)

end

end Narrow

end ValueCore
