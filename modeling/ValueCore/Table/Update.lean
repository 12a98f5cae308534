import ValueCore.Table.Basic

/-!
# Writing a hash table

The writes of the storage, each a function of the table alone. None of them compares keys or asks
for memory: the caller has found the slot, and has the block, before it calls.

An entry is appended to the insertion order (`append`), gets another value (`overwrite`) or is taken
out (`remove`). `addOverflow` gives a chain one more bucket. `grown` doubles the number of chains and
puts every entry, by its stored hash, into the chain it then belongs to: chains are filled from the
front, and their overflow buckets are taken from the end of the storage in the order they are needed.
-/

namespace ValueCore.Table

variable {κ : Type}

/-- Changes the entry in a slot, if there is one. -/
def modifySlot (t : Table κ) (i : Nat) (f : Entry κ → Entry κ) : Table κ :=
  { t with slots := t.slots.modify i (Option.map f) }

def overwrite (t : Table κ) (i : Nat) (value : Value) : Table κ :=
  t.modifySlot i fun e => { e with value }

/-- Puts a new entry into the empty slot `i`, at the end of the insertion order. -/
def append (t : Table κ) (i : Nat) (hash : UInt32) (key : κ) (value : Value) : Table κ :=
  let entry : Entry κ := ⟨hash, t.last, none, key, value⟩
  let linked := match t.last with
    | some l => t.modifySlot l fun e => { e with after := some i }
    | none => { t with first := some i }
  { linked with
    slots := linked.slots.setIfInBounds i (some entry), last := some i, length := linked.length + 1 }

/-- Takes the entry in slot `i` out of the insertion order and empties the slot. -/
def remove (t : Table κ) (i : Nat) : Table κ :=
  match t.slot i with
  | none => t
  | some e =>
    let t := match e.before with
      | some p => t.modifySlot p fun q => { q with after := e.after }
      | none => { t with first := e.after }
    let t := match e.after with
      | some n => t.modifySlot n fun q => { q with before := e.before }
      | none => { t with last := e.before }
    { t with slots := t.slots.setIfInBounds i none, length := t.length - 1 }

/-- Doubles the storage, keeping its contents. -/
def doubled (t : Table κ) (block : Option Block) : Table κ :=
  { t with
    capacity := 2 * t.capacity
    block
    slots := t.slots ++ Array.replicate (bucketSize * t.capacity) none }

/-- Empties the slots of a bucket. -/
def resetBucket (t : Table κ) (bucket : Nat) : Table κ :=
  { t with slots := (bucketSlots bucket).foldl (fun s i => s.setIfInBounds i none) t.slots }

/-- Gives the chain of `head` one more bucket, the next one of the storage. -/
def addOverflow (t : Table κ) (head : Nat) : Table κ :=
  let bucket := t.used
  let t := t.resetBucket bucket
  { t with used := bucket + 1, overflow := t.overflow.modify head (· ++ [bucket]) }

/-- First empty slot of a bucket. -/
def emptySlot (t : Table κ) (bucket : Nat) : Option Nat :=
  (bucketSlots bucket).find? fun i => (t.slot i).isNone

/-- Appends a copy of an entry to a table that is being rebuilt, opening an overflow bucket when the
last bucket of its chain is full. -/
def reinsert (t : Table κ) (e : Entry κ) : Table κ :=
  let head := t.home e.hash
  match t.emptySlot (t.lastBucket head) with
  | some i => t.append i e.hash e.key e.value
  | none =>
    let bucket := t.used
    (t.addOverflow head).append (bucketSize * bucket) e.hash e.key e.value

/-- Buckets to have at hand for a rebuild with twice as many chains. -/
def grownCapacity (t : Table κ) : Nat := 2 * t.heads + t.length / bucketSize + 1

/-- The table with twice as many chains, in a new block. -/
def grown (t : Table κ) (block : Option Block) : Table κ :=
  let entries := t.entries
  let fresh : Table κ := withStorage (2 * t.heads) t.grownCapacity block
  entries.foldl reinsert { fresh with holds := t.holds, frozen := t.frozen }

/-- No entries, the chains being kept. Overflow buckets are given up for later use. -/
def cleared (t : Table κ) : Table κ :=
  { t with
    used := t.heads
    slots := (List.range (bucketSize * t.heads)).foldl (fun s i => s.setIfInBounds i none) t.slots
    overflow := Array.replicate t.heads []
    length := 0
    first := none
    last := none }

/-- An empty table given `heads` chains, in a block of its own if there is more than one. -/
def resized (t : Table κ) (heads : Nat) (block : Option Block) : Table κ :=
  { (withStorage heads heads block : Table κ) with
    length := t.length, holds := t.holds, frozen := t.frozen }

end ValueCore.Table
