import ValueCore.Table.Basic

/-!
# Layout of a positional view

A view maps byte strings to values and also gives access to its entries by position, in the order
they were appended. Keys are fixed once appended.

The entries lie in one array. An index of chained buckets finds them by hash: as in a table, bucket
`b` has the slots `8 * b` to `8 * b + 7` and the first `heads` buckets start the chains. A slot holds
the position of an entry. The slots of a chain fill from the front and are never emptied, so a search
may leave a bucket at its first empty slot.

The writes are functions of the view alone and assume that there is room.
-/

namespace ValueCore

structure ViewEntry where
  hash : UInt32
  key : Bytes
  value : Value

/-- A positional view. -/
structure View where
  entries : Array ViewEntry
  /-- Entries that the entry array has room for. -/
  entryCapacity : Nat
  entryBlock : Option Block
  heads : Nat
  used : Nat
  capacity : Nat
  /-- The block that holds the buckets, unless the view still has only the bucket of its own. -/
  bucketBlock : Option Block
  slots : Array (Option Nat)
  overflow : Array (List Nat)

namespace View

/-- An empty view of one chain, which needs no block. -/
def empty : View where
  entries := #[]
  entryCapacity := 0
  entryBlock := none
  heads := 1
  used := 1
  capacity := 1
  bucketBlock := none
  slots := Array.replicate bucketSize none
  overflow := #[[]]

instance : Inhabited View := ⟨empty⟩

def length (v : View) : Nat := v.entries.size

/-- The keys and values in order: what the view is as a finite map. -/
def items (v : View) : List (Bytes × Value) := v.entries.toList.map fun e => (e.key, e.value)

def keys (v : View) : List Bytes := v.items.map (·.1)

/-! ## Finding an entry -/

def slot (v : View) (i : Nat) : Option Nat := v.slots[i]?.join

def home (v : View) (hash : UInt32) : Nat := hash.toNat % v.heads

def chain (v : View) (head : Nat) : List Nat := head :: v.overflow.getD head []

/-- Positions recorded in a bucket, up to its first empty slot. -/
def positions (v : View) (bucket : Nat) : List Nat :=
  ((Table.bucketSlots bucket).map v.slot).takeWhile Option.isSome |>.filterMap id

/-- Positions recorded in a chain. -/
def chainPositions (v : View) (head : Nat) : List Nat := (v.chain head).flatMap v.positions

/-- Position of the entry with this hash and key. -/
def find (v : View) (hash : UInt32) (key : Bytes) : Option Nat :=
  (v.chainPositions (v.home hash)).find? fun p =>
    match v.entries[p]? with
    | some e => e.hash = hash && e.key = key
    | none => false

/-- The value of a key. -/
def get? (v : View) (key : Bytes) : Option Value :=
  (v.find key.fnv1a key).bind fun p => v.entries[p]?.map (·.value)

/-! ## Writing -/

/-- Gives the entry at a position another value. -/
def setValue (v : View) (position : Nat) (value : Value) : View :=
  { v with entries := v.entries.modify position fun e => { e with value } }

/-- Records a position in the first empty slot of the chain of `hash`, or in a new overflow bucket
when there is none. -/
def place (v : View) (hash : UInt32) (position : Nat) : View :=
  let head := v.home hash
  match ((v.chain head).flatMap Table.bucketSlots).find? fun i => (v.slot i).isNone with
  | some i => { v with slots := v.slots.setIfInBounds i (some position) }
  | none =>
    let bucket := v.used
    let fresh := (Table.bucketSlots bucket).foldl (fun s i => s.setIfInBounds i none) v.slots
    { v with
      used := bucket + 1
      slots := fresh.setIfInBounds (bucketSize * bucket) (some position)
      overflow := v.overflow.modify head (· ++ [bucket]) }

/-- Buckets to have at hand for an index of `heads` chains: enough for every chain to fill overflow
buckets with all entries there is room for. -/
def rehashedCapacity (v : View) (heads : Nat) : Nat :=
  heads + max v.length v.entryCapacity / bucketSize + 1

/-- The view with its index rebuilt for `heads` chains, in a new block. -/
def rehashed (v : View) (heads : Nat) (block : Option Block) : View :=
  let capacity := v.rehashedCapacity heads
  let hashes := v.entries.toList.map (·.hash)
  let bare : View :=
    { v with
      heads, used := heads, capacity, bucketBlock := block
      slots := Array.replicate (bucketSize * capacity) none
      overflow := Array.replicate heads [] }
  hashes.zipIdx.foldl (fun v (hash, position) => v.place hash position) bare

/-- Room for `capacity` entries, in a given block. -/
def withEntryRoom (v : View) (capacity : Nat) (block : Option Block) : View :=
  { v with entryCapacity := capacity, entryBlock := block }

/-- Twice the room for buckets. -/
def withDoubledBuckets (v : View) (block : Option Block) : View :=
  { v with
    capacity := 2 * v.capacity
    bucketBlock := block
    slots := v.slots ++ Array.replicate (bucketSize * v.capacity) none }

/-- Appends an entry and records its position. -/
def push (v : View) (hash : UInt32) (key : Bytes) (value : Value) : View :=
  let position := v.length
  { v with entries := v.entries.push ⟨hash, key, value⟩ }.place hash position

end View

end ValueCore
