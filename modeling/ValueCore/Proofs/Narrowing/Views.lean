import ValueCore.Proofs.Narrowing.Tables
import ValueCore.Proofs.ViewModeration

/-!
# Views in signed 32-bit integers

As for tables (`Proofs.Narrowing.Tables`), the operations that size a view, rebuild its index and append to it are written
here with every number `narrow`: those of its chains and buckets, the room for entries, a size hint, and what a slot has for a
position. A slot has zero if it is empty, and otherwise the position plus one.

| number | computed by | at most |
| --- | --- | --- |
| chains | doubling, when a view is sized or an append finds it overloaded; refused from `maxHeads` on | 2²⁴ |
| room for entries | a size hint, or doubling when there are as many entries | 13 · 2²⁴ |
| buckets | rebuilding: the chains, one for every eight entries there is room for, and one | 2²⁶ |
| | doubling, when all are in use | 2²⁶ |
| what a slot has | the position of an entry, and one | 13 · 2²³ + 1 |

Only the chains have a limit of their own, and hints with them. It is the load of the view that bounds the rest.
-/

namespace ValueCore

open World

variable {ε : Type} {w u : World ε} {v : ViewId}

/-! ## Numbers of a view -/

namespace View

variable {V : View} {heads : Nat}

/-- All that a view counts, and all that its slots have, are within the range of signed 32-bit integers. -/
structure InRange (V : View) : Prop where
  heads : V.heads < 2 ^ 31
  used : V.used < 2 ^ 31
  capacity : V.capacity < 2 ^ 31
  length : V.length < 2 ^ 31
  entryCapacity : V.entryCapacity < 2 ^ 31
  positions : ∀ c < V.heads, ∀ p ∈ V.chainPositions c, p + 1 < 2 ^ 31

theorem Moderate.inRange (h : V.Moderate) : V.InRange := by
  have hheads := h.heads_le
  have hused : V.used ≤ V.capacity := h.storage.used_le
  have hcapacity := h.capacity_le
  have hlength := h.length_le
  have hroom := h.room_le
  constructor
  · exact lt_of_le_maxHeads (by omega)
  · exact lt_of_le_maxHeads (by omega)
  · exact lt_of_le_maxHeads (by omega)
  · exact lt_of_le_maxHeads (by omega)
  · exact lt_of_le_maxHeads (by omega)
  · intro c hc p hp
    rw [h.chainPositions_eq hc] at hp
    have hlt := (mem_recorded.1 hp).1
    exact lt_of_le_maxHeads (by omega)

/-- Records a position. -/
def narrowPlace (V : View) (hash : UInt32) (position : Nat) : Option View :=
  let slots := (V.chain (V.home hash)).flatMap Table.bucketSlots
  let full := (slots.find? fun i => (V.slot i).isNone).isNone
  if fits (position + 1) && (!full || fits (V.used + 1)) then some (V.place hash position) else none

/-- The view with its index rebuilt for `heads` chains and with a storage of `capacity` buckets. -/
def narrowRehashed (V : View) (heads capacity : Nat) (block : Option Block) : Option View :=
  V.hashes.zipIdx.foldlM (fun V item => V.narrowPlace item.1 item.2)
    { V with
      heads, used := heads, capacity, bucketBlock := block
      slots := Array.replicate (bucketSize * capacity) none
      overflow := Array.replicate heads [] }

/-- The view with one more entry. The number of entries is then what is recorded for the last one. -/
def narrowPush (V : View) (hash : UInt32) (key : Bytes) (value : Value) : Option View :=
  { V with entries := V.entries.push ⟨hash, key, value⟩ }.narrowPlace hash V.length

theorem narrowPlace_eq {position : Nat} (hposition : position + 1 < 2 ^ 31) (hused : V.used + 1 < 2 ^ 31) (hash : UInt32) :
    V.narrowPlace hash position = some (V.place hash position) := by
  refine if_pos ?_
  rw [fits_iff.2 hposition, fits_iff.2 hused, Bool.or_true]
  rfl

theorem Moderate.narrowRehashed (h : V.Moderate) (hp : ∃ k ≤ 24, heads = 2 ^ k) (block : Option Block) :
    V.narrowRehashed heads (V.rehashedCapacity heads) block = some (V.rehashed heads block) := by
  refine V.foldlM_rehashed hp block fun {U} {hash} {n} hroom hcapacity hn => narrowPlace_eq ?_ ?_ hash
  · have hlength := h.length_le
    exact lt_of_le_maxHeads (by omega)
  · have hle := h.rehashedCapacity_le hp
    exact lt_of_le_maxHeads (by omega)

theorem Moderate.narrowPush (h : V.Moderate) (hroom : V.used < V.capacity) (hash : UInt32) (key : Bytes) (value : Value) :
    V.narrowPush hash key value = some (V.push hash key value) := by
  have hlength := h.length_le
  have hcapacity := h.capacity_le
  have hposition : V.length + 1 < 2 ^ 31 := lt_of_le_maxHeads (by omega)
  have hused : V.used + 1 < 2 ^ 31 := lt_of_le_maxHeads (by omega)
  exact narrowPlace_eq (V := { V with entries := V.entries.push ⟨hash, key, value⟩ }) hposition hused hash

end View

/-! ## Operations -/

namespace Narrow

def rehashView (v : ViewId) (heads : Nat) : Run ε Unit := do
  let view ← readView v
  let room ← narrow (heads + max view.length view.entryCapacity / bucketSize + 1)
  let capacity := view.capacity
  let old := view.bucketBlock
  let block ← allocateArray room viewBucketBytes
  release old (capacity * viewBucketBytes)
  updateView? v (·.narrowRehashed heads room block)

def resizeView (v : ViewId) (hint : UInt32) : Run ε Unit := do
  let heads ← chooseHeads hint
  let room ← narrow hint.toNat
  if (← readView v).entryCapacity < room then reserveEntries v room
  if 1 < heads then rehashView v heads

def newView (hint : UInt32) : Run ε ViewId := fun w =>
  let (v, w) := w.addView
  if hint = 0 then (.ok v, w)
  else
    match resizeView v hint w with
    | (.ok (), w) => (.ok v, w)
    | (.error e, w) => (.error e, w.modifyView v fun _ => View.empty)

def relieveView (v : ViewId) : Nat → Run ε Unit
  | 0 => throw .exhausted
  | fuel + 1 => do
    let view ← readView v
    if overloaded view.length view.heads then
      if maxHeads ≤ view.heads then raise .tableOverflow
      let heads ← narrow (2 * view.heads)
      rehashView v heads
      relieveView v fuel

def reserveEntry (v : ViewId) : Run ε Unit := do
  let view ← readView v
  if view.length = view.entryCapacity then
    let room ← narrow (if view.entryCapacity = 0 then 1 else 2 * view.entryCapacity)
    reserveEntries v room

def reserveViewBucket (v : ViewId) : Run ε Unit := do
  let view ← readView v
  if view.used = view.capacity then
    let doubled ← narrow (2 * view.capacity)
    let block ← match view.bucketBlock with
      | none => allocateArray doubled viewBucketBytes
      | some _ => reallocateArray view.bucketBlock view.capacity doubled viewBucketBytes
    updateView v (·.withDoubledBuckets block)

def appendHashed (v : ViewId) (hash : UInt32) (key : Bytes) (value : Value) : Run ε Unit := do
  if ((← readView v).find hash key).isSome then raise (.duplicateKey key)
  relieveView v 26
  reserveEntry v
  reserveViewBucket v
  updateView? v (·.narrowPush hash key value)

/-! ### Sizing -/

theorem rehashView_eq (h : w.ModerateView v) {heads : Nat} (hp : ∃ k ≤ 24, heads = 2 ^ k) :
    rehashView v heads w = ValueCore.rehashView v heads w := by
  unfold rehashView ValueCore.rehashView
  rw [run_bind_ok (run_readView v w), run_bind_ok (run_readView v w)]
  have hle : heads + max (w.view v).length (w.view v).entryCapacity / bucketSize + 1 ≤ 4 * maxHeads :=
    h.2.rehashedCapacity_le hp
  have hroom : heads + max (w.view v).length (w.view v).entryCapacity / bucketSize + 1 < 2 ^ 31 :=
    lt_of_le_maxHeads (by omega)
  rw [run_bind_ok (run_narrow hroom w)]
  refine run_bind_congr rfl fun block u hr => ?_
  rw [run_bind_ok (run_release _ _ u), run_bind_ok (run_release _ _ u)]
  have hviews := (asks_allocateArray (w := w) ((w.view v).rehashedCapacity heads) viewBucketBytes).views
  rw [hr] at hviews
  refine run_updateView? ?_
  have hview : (u.freed (w.view v).bucketBlock ((w.view v).capacity * viewBucketBytes)).view v = w.view v :=
    view_of_views hviews v
  rw [hview]
  exact h.2.narrowRehashed hp block

/-- A hint that is out of range is refused before it is converted. -/
theorem resizeView_eq (h : w.ModerateView v) (hempty : (w.view v).length = 0) (hint : UInt32) :
    resizeView v hint w = ValueCore.resizeView v hint w := by
  unfold resizeView ValueCore.resizeView
  rw [chooseHeads_eq]
  cases hh : headsFor hint.toNat with
  | none => rw [run_bind_error (run_chooseHeads_none hh w), run_bind_error (run_chooseHeads_none hh w)]
  | some heads =>
    have hle := le_of_headsFor hh
    have hrange : hint.toNat < 2 ^ 31 := lt_of_le_maxHeads (by omega)
    rw [run_bind_ok (run_chooseHeads_some hh w), run_bind_ok (run_chooseHeads_some hh w), run_bind_ok (run_narrow hrange w),
      run_bind_ok (run_readView v w), run_bind_ok (run_readView v w)]
    have hrehash : ∀ {x : World ε}, x.ModerateView v →
        ((if 1 < heads then rehashView v heads else pure () : Run ε Unit) x) =
          (if 1 < heads then ValueCore.rehashView v heads else pure () : Run ε Unit) x := by
      intro x hx
      split
      · exact rehashView_eq hx (Table.headsFor_pow hh)
      · rfl
    dsimp only
    split
    · refine run_bind_congr rfl fun _ x hr => hrehash ?_
      have hdone := h.reserveEntries (by rw [hempty]; exact Nat.zero_le _) hle
      rw [hr] at hdone
      exact hdone.of_ok.1
    · exact hrehash h

theorem newView_eq (hint : UInt32) : (newView hint : Run ε _) = ValueCore.newView hint := by
  funext w
  have hsize := resizeView_eq (.added w) (congrArg View.length (view_addView w)) hint
  unfold newView ValueCore.newView
  dsimp only
  generalize resizeView w.addView.1 hint w.addView.2 = out at hsize ⊢
  subst hsize
  rfl

/-! ### Appending -/

theorem relieveView_eq : ∀ (fuel : Nat) {w : World ε}, w.ModerateView v →
    relieveView v fuel w = ValueCore.relieveView v fuel w
  | 0, _, _ => rfl
  | fuel + 1, w, h => by
    unfold relieveView ValueCore.relieveView
    rw [run_bind_ok (run_readView v w), run_bind_ok (run_readView v w)]
    dsimp only
    split
    · split
      · exact run_bind_congr rfl fun _ _ hr => by cases hr
      · rename_i hmax
        have hp : ∃ k ≤ 24, 2 * (w.view v).heads = 2 ^ k := h.2.storage.pow_double (Nat.lt_of_not_le hmax)
        have hle := Table.le_maxHeads hp
        have hrange : 2 * (w.view v).heads < 2 ^ 31 := lt_of_le_maxHeads (by omega)
        rw [run_bind_ok (run_narrow hrange w)]
        refine run_bind_congr (rehashView_eq h hp) fun _ u hr => ?_
        have hdone := h.double hmax
        rw [hr] at hdone
        exact relieveView_eq fuel hdone.of_ok.1
    · rfl

theorem reserveEntry_eq (h : w.ModerateView v) : reserveEntry v w = ValueCore.reserveEntry v w := by
  unfold reserveEntry ValueCore.reserveEntry
  rw [run_bind_ok (run_readView v w), run_bind_ok (run_readView v w)]
  have hroom := h.2.room_le
  split
  · have hrange : (if (w.view v).entryCapacity = 0 then 1 else 2 * (w.view v).entryCapacity) < 2 ^ 31 := by
      refine lt_of_le_maxHeads ?_
      split <;> omega
    rw [run_bind_ok (run_narrow hrange w)]
  · rfl

theorem reserveViewBucket_eq (h : w.ModerateView v) : reserveViewBucket v w = ValueCore.reserveViewBucket v w := by
  unfold reserveViewBucket ValueCore.reserveViewBucket
  rw [run_bind_ok (run_readView v w), run_bind_ok (run_readView v w)]
  split
  · have hcapacity := h.2.capacity_le
    have hrange : 2 * (w.view v).capacity < 2 ^ 31 := lt_of_le_maxHeads (by omega)
    refine (run_bind_ok (run_narrow hrange w) _).trans ?_
    cases (w.view v).bucketBlock <;> rfl
  · rfl

theorem appendHashed_eq (h : w.ModerateView v) (hash : UInt32) (key : Bytes) (value : Value) :
    appendHashed v hash key value w = ValueCore.appendHashed v hash key value w := by
  unfold appendHashed ValueCore.appendHashed
  rw [run_bind_ok (run_readView v w), run_bind_ok (run_readView v w)]
  dsimp only
  by_cases hfound : ((w.view v).find hash key).isSome
  · rw [if_pos hfound, if_pos hfound]
    exact run_bind_congr rfl fun _ _ hr => by cases hr
  · rw [if_neg hfound, if_neg hfound]
    refine run_bind_congr (relieveView_eq 26 h) fun _ x hx => ?_
    have hrelieved := h.relieve 24
    rw [hx] at hrelieved
    obtain ⟨hmx, ho⟩ := hrelieved.of_ok
    refine run_bind_congr (reserveEntry_eq hmx) fun _ y hy => ?_
    have hentry := hmx.reserveEntry ho
    rw [hy] at hentry
    obtain ⟨hmy, hoy, hroom⟩ := hentry.of_ok
    refine run_bind_congr (reserveViewBucket_eq hmy) fun _ z hz => ?_
    have hbucket := hmy.reserveBucket hoy hroom
    rw [hz] at hbucket
    obtain ⟨hmz, hroomy⟩ := hbucket.of_ok
    exact run_updateView? (hmz.2.narrowPush hroomy.buckets hash key value)

end Narrow

end ValueCore
