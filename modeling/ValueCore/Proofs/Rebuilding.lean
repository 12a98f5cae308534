import ValueCore.Proofs.Distinctness
import ValueCore.Proofs.Reentrancy
import ValueCore.Proofs.ViewPresizing
import ValueCore.Proofs.ViewUpkeep

/-!
# Rebuilds have enough room

When a table or the index of a view is rebuilt, all buckets that it can need are asked for beforehand, and the entries are
put in without any further check but an assertion: when another bucket is needed, not all are in use. Here the assertions are
put in (`Table.grown?`, `View.rehashed?`, `View.push?`). What is then computed is nothing if one of them fails, and otherwise
the same. None ever fails, and so the checked computations do what the unchecked ones do (`rebuilds_have_room`).

| where a bucket may be needed | buckets there are | why one is left |
| --- | --- | --- |
| a table grows | two for each chain there was, one for every eight entries, and one more | chains fill from the front |
| the index of a view is rebuilt | one for each chain, one for every eight entries there is room for, and one more | the same |
| an entry is appended to a view | as many as at the last rebuild, or twice that | one is seen to before the entry is written |

The sum over the chains of what each one needs is bounded by the number of full buckets, which does not depend on how the
hashes are distributed (`Table.Packed.full_le`, `View.Indexed.used_le`).

As the chains of a view fill from the front too, and no slot of theirs is ever emptied, a search that leaves a bucket at its
first empty slot misses nothing.
-/

namespace ValueCore

open World

variable {ε : Type} {I : Inventory ε} {w u : World ε} {kind : KeyKind} {t : TableId kind} {v : ViewId}

/-! ## Writes that are checked -/

namespace Table

variable {κ : Type} {T : Table κ}

/-- Puts an entry into a table that is being rebuilt, unless that needs a bucket and all are in use. -/
def reinsert? (T : Table κ) (e : Entry κ) : Option (Table κ) :=
  if (T.emptySlot (T.lastBucket (T.home e.hash))).isNone && T.capacity ≤ T.used then none else some (T.reinsert e)

/-- The table with twice as many chains, if no bucket is missing. -/
def grown? (T : Table κ) (block : Option Block) : Option (Table κ) := T.entries.foldlM reinsert? (T.fresh block)

theorem reinsert?_eq (h : Sound T) (hp : Packed T) (e : Entry κ) {n : Nat} (hcap : T.heads + n / bucketSize < T.capacity)
    (hlen : T.length < n) : T.reinsert? e = some (T.reinsert e) := by
  refine if_neg fun hfail => ?_
  rw [Bool.and_eq_true, Option.isNone_iff_eq_none, decide_eq_true_eq] at hfail
  obtain ⟨hnone, hused⟩ := hfail
  have hroom := hp.room h hcap hlen (h.home_lt e.hash) (emptySlot_eq_none hnone)
  omega

/-- Putting entries in by checked steps comes to the same as without the checks, if no step fails on the way, which is: as
long as the table is packed and has room for all that is to be put in. -/
theorem foldlM_reinsert {step : Table κ → Entry κ → Option (Table κ)} {heads capacity n : Nat}
    (hcap : heads + n / bucketSize < capacity)
    (hstep : ∀ {T : Table κ} {e : Entry κ}, Sound T → Packed T → T.heads = heads → T.capacity = capacity → T.length < n →
      step T e = some (T.reinsert e)) :
    ∀ (es : List (Entry κ)) {T : Table κ}, Sound T → Packed T → (∀ e ∈ es, e.hash ≠ 0) → T.heads = heads →
      T.capacity = capacity → T.length + es.length ≤ n → es.foldlM step T = some (es.foldl reinsert T)
  | [], _, _, _, _, _, _, _ => rfl
  | e :: es, T, h, hp, hhash, hheads, hcapacity, hlen => by
    rw [List.length_cons] at hlen
    have hone := reinsert_spec h hp e (hhash e List.mem_cons_self) (by rw [hheads, hcapacity]; exact hcap) (by omega)
    have hlength : (T.reinsert e).length = T.length + 1 := by
      rw [← hone.sound.length_records, hone.records_eq, List.length_append, h.length_records]
      rfl
    rw [List.foldlM_cons, hstep h hp hheads hcapacity (by omega), List.foldl_cons]
    exact foldlM_reinsert hcap hstep es hone.sound hone.packed (fun x hx => hhash x (List.mem_cons_of_mem _ hx))
      (hone.heads_eq.trans hheads) (hone.capacity_eq.trans hcapacity) (by omega)

/-- So does growing a table by checked steps. -/
theorem Sound.foldlM_grown (h : Sound T) (hmax : T.heads < maxHeads) (block : Option Block)
    {step : Table κ → Entry κ → Option (Table κ)}
    (hstep : ∀ {U : Table κ} {e : Entry κ}, Sound U → Packed U → U.heads = 2 * T.heads → U.capacity = T.grownCapacity →
      U.length < T.length → step U e = some (U.reinsert e)) :
    T.entries.foldlM step (T.fresh block) = some (T.grown block) := by
  obtain ⟨hs, hp, hhash, hcap, hlen⟩ := h.fresh hmax block
  exact foldlM_reinsert hcap hstep T.entries hs hp hhash rfl rfl hlen

/-- **A table grows without a bucket missing**, whatever the hashes of its entries are. -/
theorem Sound.grown? (h : Sound T) (hmax : T.heads < maxHeads) (block : Option Block) :
    T.grown? block = some (T.grown block) := by
  refine h.foldlM_grown hmax block fun {U} {e} hs hp hheads hcapacity hlen => reinsert?_eq hs hp e ?_ hlen
  rw [hheads, hcapacity]
  exact Nat.lt_succ_self _

end Table

namespace View

variable {V : View} {n heads : Nat}

/-- Records a position, unless that needs a bucket and all are in use. -/
def place? (V : View) (hash : UInt32) (position : Nat) : Option View :=
  let slots := (V.chain (V.home hash)).flatMap Table.bucketSlots
  if (slots.find? fun i => (V.slot i).isNone).isNone && V.capacity ≤ V.used then none else some (V.place hash position)

/-- The view with its index rebuilt, if no bucket is missing. -/
def rehashed? (V : View) (heads : Nat) (block : Option Block) : Option View :=
  V.hashes.zipIdx.foldlM (fun V item => V.place? item.1 item.2) (V.bare heads block)

/-- The view with one more entry, if no bucket is missing. -/
def push? (V : View) (hash : UInt32) (key : Bytes) (value : Value) : Option View :=
  { V with entries := V.entries.push ⟨hash, key, value⟩ }.place? hash V.length

theorem place?_eq (hroom : V.used < V.capacity) (hash : UInt32) (position : Nat) :
    V.place? hash position = some (V.place hash position) := by
  refine if_neg fun hfail => ?_
  rw [Bool.and_eq_true, decide_eq_true_eq] at hfail
  omega

theorem push?_eq (hroom : V.used < V.capacity) (hash : UInt32) (key : Bytes) (value : Value) :
    V.push? hash key value = some (V.push hash key value) :=
  place?_eq (V := { V with entries := V.entries.push ⟨hash, key, value⟩ }) hroom hash V.length

/-- Recording positions by checked steps comes to the same as without the checks, if no step fails on the way, which is: as
long as there are buckets enough for all that is to be recorded. -/
theorem Indexed.foldlM_place {step : View → UInt32 → Nat → Option View} {total capacity : Nat}
    (hstep : ∀ {V : View} {hash : UInt32} {n : Nat}, V.used < V.capacity → V.capacity = capacity → n < total →
      step V hash n = some (V.place hash n)) :
    ∀ (hashes : List UInt32) {V : View} {n : Nat}, Indexed V n → V.capacity = capacity →
      (∀ i hash, hashes[i]? = some hash → V.hashAt (n + i) = hash) → n + hashes.length ≤ total →
      bucketSize * V.heads + (n + hashes.length) < bucketSize * V.capacity →
        (hashes.zipIdx n).foldlM (fun V item => step V item.1 item.2) V =
          some ((hashes.zipIdx n).foldl (fun V item => V.place item.1 item.2) V)
  | [], _, _, _, _, _, _, _ => rfl
  | hash :: hashes, V, n, h, hcapacity, hhash, htotal, hroom => by
    rw [List.length_cons] at hroom htotal
    obtain ⟨hentries, hheads, hcap, -⟩ := place_frame V hash n
    have hused : V.used < V.capacity := h.used_lt (by omega)
    have hat : ∀ p, (V.place hash n).hashAt p = V.hashAt p := fun p => by rw [hashAt, hashAt, hentries]
    rw [List.zipIdx_cons, List.foldlM_cons, hstep hused hcapacity (by omega), List.foldl_cons]
    exact (h.place (hhash 0 hash rfl) hused).foldlM_place hstep hashes (hcap.trans hcapacity)
      (fun i x hx => by rw [hat, Nat.add_right_comm, Nat.add_assoc]; exact hhash (i + 1) x hx) (by omega)
      (by rw [hheads, hcap]; omega)

/-- So does rebuilding the index by checked steps. -/
theorem foldlM_rehashed (V : View) (hp : ∃ k ≤ 24, heads = 2 ^ k) (block : Option Block)
    {step : View → UInt32 → Nat → Option View}
    (hstep : ∀ {U : View} {hash : UInt32} {n : Nat}, U.used < U.capacity → U.capacity = V.rehashedCapacity heads →
      n < V.length → step U hash n = some (U.place hash n)) :
    V.hashes.zipIdx.foldlM (fun V item => step V item.1 item.2) (V.bare heads block) = some (V.rehashed heads block) := by
  rw [rehashed_eq]
  exact (V.indexed_bare hp block).foldlM_place hstep V.hashes rfl
    (fun i hash hi => by rw [Nat.zero_add]; exact hashAt_of_hashes hi) (by rw [length_hashes, Nat.zero_add])
    (V.bare_room heads block)

/-- **An index is rebuilt without a bucket missing**, whatever the hashes of the entries are. -/
theorem rehashed?_eq (V : View) (hp : ∃ k ≤ 24, heads = 2 ^ k) (block : Option Block) :
    V.rehashed? heads block = some (V.rehashed heads block) :=
  V.foldlM_rehashed hp block fun hroom _ _ => place?_eq hroom _ _

/-! ### Searching -/

/-- Position of the entry with this hash and key, all slots of its chain being looked at. -/
def findThorough (V : View) (hash : UInt32) (key : Bytes) : Option Nat :=
  (((V.chain (V.home hash)).flatMap Table.bucketSlots).filterMap V.slot).find? fun p =>
    match V.entries[p]? with
    | some e => e.hash = hash && e.key = key
    | none => false

/-- The occupied slots of a chain come first. -/
def FilledFromFront (V : View) (c : Nat) : Prop :=
  ∃ (ps : List Nat) (k : Nat), ((V.chain c).flatMap Table.bucketSlots).map V.slot = ps.map some ++ List.replicate k none

theorem Indexed.filledFromFront (h : Indexed V n) {c : Nat} (hc : c < V.heads) : V.FilledFromFront c :=
  ⟨V.recorded n c, h.filled c hc⟩

/-- Leaving a bucket at its first empty slot misses nothing. -/
theorem Indexed.find_eq_findThorough (h : Indexed V n) (hash : UInt32) (key : Bytes) :
    V.find hash key = V.findThorough hash key := by
  have hc : V.home hash < V.heads := h.storage.home_lt hash
  obtain ⟨k, hk⟩ := h.filled _ hc
  have hall : ((V.chain (V.home hash)).flatMap Table.bucketSlots).filterMap V.slot = V.recorded n (V.home hash) := by
    have hmap : ((V.chain (V.home hash)).flatMap Table.bucketSlots).filterMap V.slot =
        (((V.chain (V.home hash)).flatMap Table.bucketSlots).map V.slot).filterMap id := by
      rw [List.filterMap_map]
      rfl
    have hslots : ((V.chain (V.home hash)).flatMap Table.bucketSlots).map V.slot =
        (V.recorded n (V.home hash)).map some ++ List.replicate k none := hk
    rw [hmap, hslots, List.filterMap_append]
    simp
  have hpositions : V.chainPositions (V.home hash) =
      ((V.chain (V.home hash)).flatMap Table.bucketSlots).filterMap V.slot := (h.chainPositions_eq hc).trans hall.symm
  exact congrArg (List.find? _) hpositions

end View

/-! ## Work that is checked -/

/-- Changes a table, or fails. -/
def updateTable? (t : TableId kind) (f : Table kind.Key → Option (Table kind.Key)) : Run ε Unit := do
  match f (← readTable t) with
  | some T => updateTable t fun _ => T
  | none => throw (.misuse (ascii "assertion failed"))

/-- `growTable` with its assertions. -/
def growTable? (t : TableId kind) : Run ε Unit := do
  let table ← readTable t
  if maxHeads ≤ table.heads then raise .tableOverflow
  let capacity := table.capacity
  let old := table.block
  let block ← allocateArray table.grownCapacity kind.bucketBytes
  updateTable? t (·.grown? block)
  release old (capacity * kind.bucketBytes)

/-- Changes a view, or fails. -/
def updateView? (v : ViewId) (f : View → Option View) : Run ε Unit := do
  match f (← readView v) with
  | some V => updateView v fun _ => V
  | none => throw (.misuse (ascii "assertion failed"))

/-- `rehashView` with its assertions. -/
def rehashView? (v : ViewId) (heads : Nat) : Run ε Unit := do
  let view ← readView v
  let capacity := view.capacity
  let old := view.bucketBlock
  let block ← allocateArray (view.rehashedCapacity heads) viewBucketBytes
  release old (capacity * viewBucketBytes)
  updateView? v (·.rehashed? heads block)

/-- `relieveView` with its assertions. -/
def relieveView? (v : ViewId) : Nat → Run ε Unit
  | 0 => throw .exhausted
  | fuel + 1 => do
    let view ← readView v
    let heads := view.heads
    if overloaded view.length heads then
      if maxHeads ≤ heads then raise .tableOverflow
      rehashView? v (2 * heads)
      relieveView? v fuel

/-- `appendHashed` with its assertions. -/
def appendHashed? (v : ViewId) (hash : UInt32) (key : Bytes) (value : Value) : Run ε Unit := do
  if ((← readView v).find hash key).isSome then raise (.duplicateKey key)
  relieveView? v 26
  reserveEntry v
  reserveViewBucket v
  updateView? v (·.push? hash key value)

theorem run_updateTable? {f : Table kind.Key → Option (Table kind.Key)} {g : Table kind.Key → Table kind.Key}
    (h : f (w.table t) = some (g (w.table t))) : updateTable? t f w = updateTable t g w := by
  have hconst : w.modifyTable t (fun _ => g (w.table t)) = w.modifyTable t g := by
    cases kind
    · exact congrArg (fun a => ({ w with anyTables := a } : World ε)) (modify_const g default).symm
    · exact congrArg (fun a => ({ w with textTables := a } : World ε)) (modify_const g default).symm
  unfold updateTable?
  rw [run_bind_ok (run_readTable t w), h]
  exact congrArg (Prod.mk (Except.ok ())) hconst

theorem run_updateView? {f : View → Option View} {g : View → View} (h : f (w.view v) = some (g (w.view v))) :
    updateView? v f w = updateView v g w := by
  have hconst : w.modifyView v (fun _ => g (w.view v)) = w.modifyView v g :=
    congrArg (fun a => ({ w with views := a } : World ε)) (modify_const g default).symm
  unfold updateView?
  rw [run_bind_ok (run_readView v w), h]
  exact congrArg (Prod.mk (Except.ok ())) hconst

/-- **Growing a table** does not fail on an assertion. -/
theorem growTable?_eq (h : (w.table t).Sound) : growTable? t w = growTable t w := by
  unfold growTable? growTable
  rw [run_bind_ok (run_readTable t w), run_bind_ok (run_readTable t w)]
  dsimp only
  split
  · exact run_bind_congr rfl fun _ _ hr => by cases hr
  · rename_i hmax
    have hask := asks_allocateArray (w := w) (w.table t).grownCapacity kind.bucketBytes
    refine run_bind_congr rfl fun block u hr => run_bind_congr (run_updateTable? ?_) fun _ _ _ => rfl
    have htable : u.table t = w.table t := by
      have halike := hask.alike
      rw [hr] at halike
      exact halike.table t
    rw [htable]
    exact h.grown? (Nat.lt_of_not_le hmax) block

/-- **Nor does rebuilding the index of a view.** -/
theorem rehashView?_eq (v : ViewId) {heads : Nat} (hp : ∃ k ≤ 24, heads = 2 ^ k) (w : World ε) :
    rehashView? v heads w = rehashView v heads w := by
  unfold rehashView? rehashView
  rw [run_bind_ok (run_readView v w), run_bind_ok (run_readView v w)]
  exact run_bind_congr rfl fun block _ _ => run_bind_congr rfl fun _ u _ => run_updateView? ((u.view v).rehashed?_eq hp block)

/-- A view that is there and in order. -/
theorem sound_indifferent (v : ViewId) : Indifferent v fun w : World ε => v.index < w.views.size ∧ (w.view v).Sound where
  has h := h.1
  sound h := h.2
  same h he := ⟨he ▸ h.1, view_of_views he v ▸ h.2⟩
  keep h hs _ _ := ⟨(Array.size_modify ..).symm ▸ h.1, view_modifyView h.1 ▸ hs⟩

theorem relieveView?_eq : ∀ (fuel : Nat) {w : World ε}, v.index < w.views.size → (w.view v).Sound →
    relieveView? v fuel w = relieveView v fuel w
  | 0, _, _, _ => rfl
  | fuel + 1, w, hv, hs => by
    unfold relieveView? relieveView
    rw [run_bind_ok (run_readView v w), run_bind_ok (run_readView v w)]
    dsimp only
    split
    · split
      · exact run_bind_congr rfl fun _ _ hr => by cases hr
      · rename_i hmax
        have hp : ∃ k ≤ 24, 2 * (w.view v).heads = 2 ^ k := hs.storage.pow_double (Nat.lt_of_not_le hmax)
        refine run_bind_congr (rehashView?_eq v hp w) fun _ u hr => ?_
        have hends := ((sound_indifferent v).rehash ⟨hv, hs⟩ hp).ends
        rw [hr] at hends
        exact relieveView?_eq fuel hends.1 hends.2
    · rfl

/-- **Nor does appending to a view**, whether or not its index is rebuilt for that. -/
theorem appendHashed?_eq (hv : v.index < w.views.size) (hs : (w.view v).Sound) (hash : UInt32) (key : Bytes) (value : Value) :
    appendHashed? v hash key value w = appendHashed v hash key value w := by
  have hroom := (sound_indifferent v).makeRoom ⟨hv, hs⟩
  unfold appendHashed? appendHashed
  rw [run_bind_ok (run_readView v w), run_bind_ok (run_readView v w)]
  dsimp only
  by_cases hfound : ((w.view v).find hash key).isSome
  · rw [if_pos hfound, if_pos hfound]
    exact run_bind_congr rfl fun _ _ hr => by cases hr
  · rw [if_neg hfound, if_neg hfound]
    refine run_bind_congr (relieveView?_eq 26 hv hs) fun _ x hx => run_bind_congr rfl fun _ y hy =>
      run_bind_congr rfl fun _ z hz => run_updateView? (View.push?_eq ?_ hash key value)
    rw [run_bind_ok hx, run_bind_ok hy, hz] at hroom
    exact hroom.of_ok.2.1

/-! ## Every world -/

/-- **Rebuilds have enough room**, in every world that a program comes to, in the middle of an operation too. Whatever table
grows gets along with its buckets, and its chains are packed then; whatever view is added to or gets another index gets along
with its own, and its chains are filled from the front, so that a search may stop at the first empty slot. -/
theorem rebuilds_have_room :
    (∀ {w : World ε}, Midway I w → ∀ {kind : KeyKind} (t : TableId kind), w.Has t →
      growTable? t w = growTable t w ∧
      ((w.table t).heads < maxHeads → ∀ block,
        ((w.table t).grown block).capacity = 2 * (w.table t).heads + (w.table t).length / bucketSize + 1 ∧
        ((w.table t).grown block).Packed)) ∧
    ∀ {w : World ε}, w.Supplied → ∀ v : ViewId, v.index < w.views.size →
      (∀ heads, (∃ k ≤ 24, heads = 2 ^ k) → rehashView? v heads w = rehashView v heads w) ∧
      (∀ hash key value, appendHashed? v hash key value w = appendHashed v hash key value w) ∧
      (∀ c < (w.view v).heads, (w.view v).FilledFromFront c) ∧
      ∀ hash key, (w.view v).find hash key = (w.view v).findThorough hash key := by
  refine ⟨fun {w} hw {kind} t _ => ?_, fun {w} hw v hv => ?_⟩
  · have hs : (w.table t).Sound := hw.sound.tables t
    refine ⟨growTable?_eq hs, fun hmax block => ?_⟩
    obtain ⟨-, hpacked, -, -, hcapacity, -, -⟩ := hs.grown hmax block
    exact ⟨hcapacity, hpacked⟩
  · have hs := hw.viewsSound v
    exact ⟨fun heads hp => rehashView?_eq v hp w, appendHashed?_eq hv hs, fun c hc => hs.filledFromFront hc,
      hs.find_eq_findThorough⟩

/-- A table of two chains with nine entries on one of them. -/
def lopsidedTable : List Operation :=
  .newTable .any 9 :: (List.range 9).map fun i => @Operation.insert .any ⟨0⟩ (.int (.ofNat (4 * i))) .none

theorem mute_supplier : Supplier (mute : Host ε) :=
  .intro (fun _ => False) (fun _ h => h.elim) (fun _ _ => .refl) (fun _ _ => .refl) (fun _ _ _ _ => .refl) fun _ _ => .refl

theorem Supplies.colliding {hosts : Host ε → Prop} : ∀ (keys : List Bytes) {x : World ε}, Supplies hosts w x →
    (∀ i < keys.length, v.index < (ValueCore.colliding v (keys.take i) x).views.size) →
    Supplies hosts w (ValueCore.colliding v keys x)
  | [], _, hs, _ => hs
  | key :: keys, _, hs, hv =>
    colliding keys (hs.append v 0 key .none (hv 0 (Nat.succ_pos _))) fun i hi => hv (i + 1) (Nat.succ_lt_succ hi)

def generous : World Unit := (World.open? (fun _ _ => true) ()).getD (World.unused ())

def withView : World Unit := ((Service.newView 0).run mute generous).2

/-- A view of one chain with eight entries on it. -/
def lopsidedView : World Unit := colliding ⟨0⟩ eightKeys withView

/-- The table grows into six buckets and uses five of them. The ninth entry of the view has its index rebuilt, with four
buckets, and takes the third. -/
theorem rebuilds_have_room_lopsided :
    let w : World Unit := inTurn lopsidedTable (World.unused ())
    let t : TableId .any := ⟨0⟩
    let v : ViewId := ⟨0⟩
    (growTable? t w = growTable t w ∧ (growTable t w).1 = .ok () ∧
      ((growTable t w).2.table t).capacity = 6 ∧ ((growTable t w).2.table t).used = 5) ∧
    appendHashed? v 0 [8] .none lopsidedView = appendHashed v 0 [8] .none lopsidedView ∧
    ((appendHashed v 0 [8] .none lopsidedView).2.view v).capacity = 4 ∧
    ((appendHashed v 0 [8] .none lopsidedView).2.view v).used = 3 := by
  have hw : Midway .nothing (inTurn lopsidedTable (World.unused ())) := ⟨_, (reachable_inTurn (by decide +kernel)).1, .start⟩
  have hmade : Supplies Supplier generous withView :=
    .conduct .refl (Conducts.refl.serve mute (.newView 0) mute_supplier fun _ => trivial)
  have hv : lopsidedView.Supplied :=
    ⟨fun _ _ => true, (), generous, rfl, Supplies.colliding eightKeys hmade (by decide +kernel)⟩
  obtain ⟨htables, hviews⟩ := rebuilds_have_room (I := .nothing)
  refine ⟨⟨(htables hw (⟨0⟩ : TableId .any) (by decide +kernel)).1, ?_⟩,
    (hviews hv ⟨0⟩ (by decide +kernel)).2.1 0 [8] .none, ?_⟩
  · decide +kernel
  · decide +kernel

end ValueCore
