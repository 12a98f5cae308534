import ValueCore.World

/-!
# Operations on the tables of a world

Looking up, inserting, erasing and clearing, on a table of either kind. How keys are hashed and
compared is a parameter (`Keying`): for byte strings it is computation, for values it may run the
host's code, which may fail or come back to the very table that is being searched.

Three rules keep the table sound whatever that code does.

* A key is hashed before its chain is scanned, and the chain is scanned with the contents held in
  place: a change attempted by a comparison is refused with `iterating`.
* A change is checked for before the key is hashed and again after the scan, since hashing and
  comparing may have frozen the table or left a cursor on it.
* Nothing is written before the last step that can fail. A table grows into a new block, and the old
  one is given back only then.

An insertion of a new key goes into the last empty slot of its chain. It grows an overloaded table
first and then scans again, as the chains have changed.
-/

namespace ValueCore

variable {ε : Type} {kind : KeyKind}

/-- How the keys of a table are hashed and compared. -/
structure Keying (ε : Type) (κ : Type) where
  hash : κ → Run ε UInt32
  equal : κ → κ → Run ε Bool

/-- Byte strings hash and compare by their contents, which never fails. -/
def textKeying : Keying ε (KeyKind.Key .text) where
  hash s := pure s.fnv1a
  equal a b := pure (decide (a = b))

/-- Size of a bucket of a table of each kind. -/
def KeyKind.bucketBytes : KeyKind → Nat
  | .any => 392
  | .text => 328

/-- Size of a key in a list of keys: a value, or a reference to a byte string. -/
def KeyKind.keyBytes : KeyKind → Nat
  | .any => 16
  | .text => 8

/-- Size of an item in a list of items, which is that of its key and of a value. -/
def KeyKind.itemBytes (kind : KeyKind) : Nat := kind.keyBytes + 16

/-- The hash an entry is stored under: zero marks an empty slot, so it is replaced. -/
def storedHash (h : UInt32) : UInt32 := if h = 0 then 1 else h

/-! ## Making tables -/

/-- The number of chains for `hint` entries, or a fault when the limit does not admit enough. -/
def chooseHeads (hint : UInt32) : Run ε Nat :=
  match headsFor hint.toNat with
  | some heads => pure heads
  | none => raise .tableOverflow

/-- The block for `heads` chains; a single chain needs none. -/
def allocateHeads (kind : KeyKind) (heads : Nat) : Run ε (Option Block) :=
  if 1 < heads then allocateArray heads kind.bucketBytes else pure none

/-- A new table sized for `hint` entries. -/
def newTable (kind : KeyKind) (hint : UInt32) : Run ε (TableId kind) := do
  let heads ← chooseHeads hint
  let block ← allocateHeads kind heads
  modifyGet (·.addTable kind (Table.withStorage heads heads block))

/-- Sizes an empty table for `hint` entries. -/
def resizeTable (t : TableId kind) (hint : UInt32) : Run ε Unit := do
  let heads ← chooseHeads hint
  let block ← allocateHeads kind heads
  let old ← readTable t
  release old.block (old.capacity * kind.bucketBytes)
  updateTable t (·.resized heads block)

/-! ## Scanning -/

/-- Refuses a change of a frozen table, or of one that is held in place. -/
def checkMutable (t : TableId kind) (change : TableChange) : Run ε Unit := do
  let table ← readTable t
  if table.frozen then raise (.frozenTable change)
  if 0 < table.holds then raise (.iterating change)

/-- Slot of the first candidate that is equal to `key`. -/
def firstEqual {κ : Type} (equal : κ → κ → Run ε Bool) (key : κ) :
    List (Nat × κ) → Run ε (Option Nat)
  | [] => pure none
  | (slot, k) :: rest => do if ← equal key k then pure (some slot) else firstEqual equal key rest

/-- Scans the chain of `hash` for `key`. -/
def scan (keying : Keying ε kind.Key) (t : TableId kind) (key : kind.Key) (hash : UInt32) :
    Run ε (Option Nat) := do
  let candidates := (← readTable t).candidates hash
  holding t (firstEqual keying.equal key candidates)

/-- The slot of `key`, if the table has it. -/
def findSlot (keying : Keying ε kind.Key) (t : TableId kind) (key : kind.Key) :
    Run ε (Option Nat) := do
  let hash ← keying.hash key
  scan keying t key (storedHash hash)

/-- The value of `key`. -/
def lookup (keying : Keying ε kind.Key) (t : TableId kind) (key : kind.Key) :
    Run ε (Option Value) := do
  match ← findSlot keying t key with
  | some i => return ((← readTable t).slot i).map (·.value)
  | none => return none

/-! ## Inserting -/

/-- Doubles the number of chains. -/
def growTable (t : TableId kind) : Run ε Unit := do
  let table ← readTable t
  if maxHeads ≤ table.heads then raise .tableOverflow
  let capacity := table.capacity
  let old := table.block
  let block ← allocateArray table.grownCapacity kind.bucketBytes
  updateTable t (·.grown block)
  release old (capacity * kind.bucketBytes)

/-- Makes sure that another bucket is stored beyond the used ones. -/
def reserveBucket (t : TableId kind) : Run ε Unit := do
  let table ← readTable t
  if table.used = table.capacity then
    if 2 * maxHeads ≤ table.capacity then raise .tableOverflow
    let block ← match table.block with
      | none => allocateArray (2 * table.capacity) kind.bucketBytes
      | some _ =>
        reallocateArray table.block table.capacity (2 * table.capacity) kind.bucketBytes
    updateTable t (·.doubled block)

/-- An empty slot in the chain of `hash`: the last one it has, or the first of a new bucket. -/
def roomFor (t : TableId kind) (hash : UInt32) : Run ε Nat := do
  let table ← readTable t
  let head := table.home hash
  match table.vacancy head with
  | some i => return i
  | none =>
    reserveBucket t
    let bucket := (← readTable t).used
    updateTable t (·.addOverflow head)
    return bucketSize * bucket

/-- Scans for `key` and writes the entry, growing the table as long as it is overloaded, which can
happen `fuel` times. -/
def insertHashed (keying : Keying ε kind.Key) (t : TableId kind) (key : kind.Key) (value : Value)
    (hash : UInt32) : Nat → Run ε Unit
  | 0 => throw .exhausted
  | fuel + 1 => do
    let found ← scan keying t key hash
    checkMutable t .insert
    match found with
    | some i => updateTable t (·.overwrite i value)
    | none =>
      let table ← readTable t
      if overloaded table.length table.heads then
        growTable t
        insertHashed keying t key value hash fuel
      else
        let i ← roomFor t hash
        updateTable t (·.append i hash key value)

/-- Sets the value of `key`. A key that is present keeps its place and its first-inserted form; a
new one goes to the end. From one chain there are at most 24 doublings up to the limit, so 26 scans
always suffice. -/
def insert (keying : Keying ε kind.Key) (t : TableId kind) (key : kind.Key) (value : Value) :
    Run ε Unit := do
  checkMutable t .insert
  let hash ← keying.hash key
  insertHashed keying t key value (storedHash hash) 26

/-! ## Erasing -/

/-- Removes `key` and answers with the value it had. -/
def erase (keying : Keying ε kind.Key) (t : TableId kind) (key : kind.Key) :
    Run ε (Option Value) := do
  checkMutable t .erase
  let found ← findSlot keying t key
  checkMutable t .erase
  match found with
  | some i =>
    let value := ((← readTable t).slot i).map (·.value)
    updateTable t (·.remove i)
    return value
  | none => return none

/-- Removes every entry, keeping the chains. -/
def clear (t : TableId kind) : Run ε Unit := do
  checkMutable t .clear
  updateTable t (·.cleared)

/-! ## Reading it all -/

/-- The keys in order, as a list that takes memory while it is in use. -/
def keyList (t : TableId kind) : Run ε (List kind.Key) := do
  let table ← readTable t
  withScratch table.length kind.keyBytes (pure table.keys)

/-- The items in order, as a list that takes memory while it is in use. -/
def itemList (t : TableId kind) : Run ε (List (kind.Key × Value)) := do
  let table ← readTable t
  withScratch table.length kind.itemBytes (pure table.items)

/-- Freezes a table and then, in order, its keys and values. The flag is set before the contents are
visited, so that a cycle back to the table ends there. -/
def freezeTable (freezeKey : kind.Key → Run ε Unit) (freezeValue : Value → Run ε Unit)
    (t : TableId kind) : Run ε Unit := do
  let table ← readTable t
  unless table.frozen do
    updateTable t fun t => { t with frozen := true }
    table.items.forM fun (key, value) => do
      freezeKey key
      freezeValue value

end ValueCore
