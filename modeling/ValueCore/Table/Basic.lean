import ValueCore.Value
import ValueCore.Memory

/-!
# Layout of an insertion-ordered hash table

A table is a chained hash table. Entries are stored in buckets of eight slots; bucket `b` holds the
slots `8 * b` to `8 * b + 7`, and a slot is named by that number wherever it is referred to. The
first `heads` buckets start the chains, `heads` being a power of two, and an entry belongs to the
chain its hash selects. When a chain has no empty slot left it gets an overflow bucket; `overflow`
lists, for each chain, its overflow buckets in the order in which the chain runs through them.

Live entries are linked in the order in which their keys were first inserted, forwards by `after`
and backwards by `before`; `first` and `last` are the ends of that list.

`used` buckets are in use out of `capacity` stored ones. A table of one chain starts with a bucket
of its own; every larger storage is a block asked for from the allocator. Storage beyond `used` may
hold entries of an earlier life of the table and is reset before it is used again.

`holds` counts what currently needs the contents to stay as they are: active cursors and key scans.

This module has the layout and everything that reads it. `Table.Update` has the writes.
-/

namespace ValueCore

/-- Slots in a bucket. -/
def bucketSize : Nat := 8

/-- Limit for the number of chains. -/
def maxHeads : Nat := 2 ^ 24

/-- Are `count` entries too many for `heads` chains? A table grows when its chains hold 6.5 entries
on average, but not before it has eight. -/
def overloaded (count heads : Nat) : Bool := 8 ≤ count && 13 * heads ≤ 2 * count

/-- Doubles the number of chains until `hint` entries fit, at most `fuel` times. -/
def headsFrom (hint : Nat) : Nat → Nat → Option Nat
  | 0, heads => if overloaded hint heads then none else some heads
  | fuel + 1, heads => if overloaded hint heads then headsFrom hint fuel (2 * heads) else some heads

/-- The least number of chains that holds `hint` entries without growing, if the limit admits one:
from one chain there are 24 doublings up to the limit. -/
def headsFor (hint : Nat) : Option Nat := headsFrom hint 24 1

/-- A live slot. -/
structure Entry (κ : Type) where
  /-- The hash of the key, never zero. -/
  hash : UInt32
  /-- Slot of the entry inserted just before this one. -/
  before : Option Nat
  /-- Slot of the entry inserted just after this one. -/
  after : Option Nat
  key : κ
  value : Value

/-- An insertion-ordered hash table. -/
structure Table (κ : Type) where
  heads : Nat
  used : Nat
  capacity : Nat
  /-- The block that holds the buckets, unless the table still has only the bucket of its own. -/
  block : Option Block
  slots : Array (Option (Entry κ))
  overflow : Array (List Nat)
  length : Nat
  holds : Nat
  first : Option Nat
  last : Option Nat
  frozen : Bool

namespace Table

variable {κ : Type}

/-- An empty table with `heads` chains in a storage of `capacity` buckets. -/
def withStorage (heads capacity : Nat) (block : Option Block) : Table κ where
  heads := heads
  used := heads
  capacity := capacity
  block := block
  slots := Array.replicate (bucketSize * capacity) none
  overflow := Array.replicate heads []
  length := 0
  holds := 0
  first := none
  last := none
  frozen := false

/-- An empty table of one chain, which needs no block. -/
def empty : Table κ := withStorage 1 1 none

instance : Inhabited (Table κ) := ⟨empty⟩

/-! ## Reading slots and chains -/

/-- The entry in a slot, if the slot is live. -/
def slot (t : Table κ) (i : Nat) : Option (Entry κ) := t.slots[i]?.join

/-- The chain of a hash. -/
def home (t : Table κ) (hash : UInt32) : Nat := hash.toNat % t.heads

/-- The buckets of a chain, its head first. -/
def chain (t : Table κ) (head : Nat) : List Nat := head :: t.overflow.getD head []

/-- The slots of a bucket, in order. -/
def bucketSlots (bucket : Nat) : List Nat :=
  (List.range bucketSize).map (bucketSize * bucket + ·)

/-- The slots of a chain, in order. -/
def chainSlots (t : Table κ) (head : Nat) : List Nat := (t.chain head).flatMap bucketSlots

/-- Last bucket of a chain. -/
def lastBucket (t : Table κ) (head : Nat) : Nat := (t.overflow.getD head []).getLastD head

/-- The entries whose stored hash is `hash`, each with its slot, in the order a scan of the chain
meets them. -/
def candidates (t : Table κ) (hash : UInt32) : List (Nat × κ) :=
  (t.chainSlots (t.home hash)).filterMap fun i =>
    match t.slot i with
    | some e => if e.hash = hash then some (i, e.key) else none
    | none => none

/-- The last empty slot of a chain. -/
def vacancy (t : Table κ) (head : Nat) : Option Nat :=
  ((t.chainSlots head).filter fun i => (t.slot i).isNone).getLast?

/-! ## The contents in insertion order -/

/-- Slots met by following `after` from `start`, at most `fuel` of them. -/
def walk (t : Table κ) : Nat → Option Nat → List Nat
  | 0, _ => []
  | _, none => []
  | fuel + 1, some i => i :: t.walk fuel ((t.slot i).bind (·.after))

/-- The live slots in insertion order. -/
def order (t : Table κ) : List Nat := t.walk t.length t.first

/-- The live entries in insertion order. -/
def entries (t : Table κ) : List (Entry κ) := t.order.filterMap t.slot

/-- The keys and values in insertion order: what the table is as a finite map. -/
def items (t : Table κ) : List (κ × Value) := t.entries.map fun e => (e.key, e.value)

def keys (t : Table κ) : List κ := t.items.map (·.1)

def firstKey (t : Table κ) : Option κ := (t.first.bind t.slot).map (·.key)

end Table

end ValueCore
