import ValueCore.Bytes.Sort
import ValueCore.Table.Access

/-!
# Operations on the views of a world

Building views, appending to them and reading them by key or by position. An append that fails has
not added anything; it may have left the view with more room or with more chains.
-/

namespace ValueCore

variable {ε : Type}

/-- Size of an entry of a view. -/
def viewEntryBytes : Nat := 32

/-- Size of a bucket of a view. -/
def viewBucketBytes : Nat := 36

def readView (v : ViewId) : Run ε View := return (← get).view v

def updateView (v : ViewId) (f : View → View) : Run ε Unit := modify (·.modifyView v f)

/-- Adds an empty view and names it. -/
def World.addView (w : World ε) : ViewId × World ε :=
  (⟨w.views.size⟩, { w with views := w.views.push View.empty })

/-- Gives back all memory of a view, leaving it empty. -/
def World.dropView (w : World ε) (v : ViewId) : World ε :=
  let view := w.view v
  let w := w.freed view.bucketBlock (view.capacity * viewBucketBytes)
  let w := w.freed view.entryBlock (view.entryCapacity * viewEntryBytes)
  w.modifyView v fun _ => View.empty

/-- Rebuilds the index for `heads` chains. All memory it can need is asked for first. -/
def rehashView (v : ViewId) (heads : Nat) : Run ε Unit := do
  let view ← readView v
  let capacity := view.capacity
  let old := view.bucketBlock
  let block ← allocateArray (view.rehashedCapacity heads) viewBucketBytes
  release old (capacity * viewBucketBytes)
  updateView v (·.rehashed heads block)

/-- Makes room for `capacity` entries in the entry array. -/
def reserveEntries (v : ViewId) (capacity : Nat) : Run ε Unit := do
  let view ← readView v
  let block ← reallocateArray view.entryBlock view.entryCapacity capacity viewEntryBytes
  updateView v (·.withEntryRoom capacity block)

/-- Sizes an empty view for `hint` entries. -/
def resizeView (v : ViewId) (hint : UInt32) : Run ε Unit := do
  let heads ← chooseHeads hint
  if (← readView v).entryCapacity < hint.toNat then reserveEntries v hint.toNat
  if 1 < heads then rehashView v heads

/-- A new view sized for `hint` entries. If sizing fails the view is given up as it stands: an entry
array that it had already been granted is not given back. -/
def newView (hint : UInt32) : Run ε ViewId := fun w =>
  let (v, w) := w.addView
  if hint = 0 then (.ok v, w)
  else
    match resizeView v hint w with
    | (.ok (), w) => (.ok v, w)
    | (.error e, w) => (.error e, w.modifyView v fun _ => View.empty)

/-- Runs `fill` on a view. If that fails the view is dropped. -/
def orDropView (v : ViewId) (fill : Run ε Unit) : Run ε ViewId := fun w =>
  match fill w with
  | (.ok (), w) => (.ok v, w)
  | (.error e, w) => (.error e, w.dropView v)

/-! ## Appending -/

/-- Doubles the number of chains as long as the view is overloaded, which can happen `fuel` times. -/
def relieveView (v : ViewId) : Nat → Run ε Unit
  | 0 => throw .exhausted
  | fuel + 1 => do
    let view ← readView v
    let heads := view.heads
    if overloaded view.length heads then
      if maxHeads ≤ heads then raise .tableOverflow
      rehashView v (2 * heads)
      relieveView v fuel

/-- Makes sure that another entry has room. -/
def reserveEntry (v : ViewId) : Run ε Unit := do
  let view ← readView v
  if view.length = view.entryCapacity then
    reserveEntries v (if view.entryCapacity = 0 then 1 else 2 * view.entryCapacity)

/-- Makes sure that another bucket is stored beyond the used ones. -/
def reserveViewBucket (v : ViewId) : Run ε Unit := do
  let view ← readView v
  if view.used = view.capacity then
    let block ← match view.bucketBlock with
      | none => allocateArray (2 * view.capacity) viewBucketBytes
      | some _ =>
        reallocateArray view.bucketBlock view.capacity (2 * view.capacity) viewBucketBytes
    updateView v (·.withDoubledBuckets block)

/-- Appends an entry under a given hash. A key that the view has under that hash is refused. -/
def appendHashed (v : ViewId) (hash : UInt32) (key : Bytes) (value : Value) : Run ε Unit := do
  if ((← readView v).find hash key).isSome then raise (.duplicateKey key)
  relieveView v 26
  reserveEntry v
  reserveViewBucket v
  updateView v (·.push hash key value)

/-- Appends an entry. -/
def appendEntry (v : ViewId) (key : Bytes) (value : Value) : Run ε Unit :=
  appendHashed v key.fnv1a key value

/-- Appends the keys of a table, in the order given, with their values. -/
def appendKeys (v : ViewId) (t : TableId .text) (keys : List Bytes) : Run ε Unit :=
  keys.forM fun key => do
    let value ← lookup textKeying t key
    appendEntry v key (value.getD .none)

/-- A view of the items of a table, in ascending order of their keys. -/
def viewOfTable (t : TableId .text) : Run ε ViewId := do
  let table ← readTable t
  let v ← newView table.length.toUInt32
  orDropView v (withScratch table.length 8 (appendKeys v t (sortBy id table.keys)))

/-! ## Reading and setting -/

/-- Sets the value of a key that is present; answers whether it was. -/
def setEntry (v : ViewId) (key : Bytes) (value : Value) : Run ε Bool := do
  match (← readView v).find key.fnv1a key with
  | some p =>
    updateView v (·.setValue p value)
    return true
  | none => return false

/-- The entry at a position. -/
def entryAt (v : ViewId) (index : Int) : Run ε ViewEntry := do
  let view ← readView v
  let missing := raise (.indexOutOfRange index view.length)
  if index < 0 then missing
  else
    match view.entries[index.toNat]? with
    | some e => return e
    | none => missing

/-- The keys in order, as a list that takes memory while it is in use. -/
def viewKeyList (v : ViewId) : Run ε (List Bytes) := do
  let view ← readView v
  withScratch view.length 8 (pure view.keys)

/-- The items in order, up to and with the first that `visit` declines. -/
def visited (visit : Bytes → Bool) : List (Bytes × Value) → List (Bytes × Value)
  | [] => []
  | item :: rest => if visit item.1 then item :: visited visit rest else [item]

end ValueCore
