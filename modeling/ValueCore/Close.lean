import ValueCore.Struct

/-!
# Closing a world

Everything a world has asked for is given back when it is closed: the storage of every table and
view, the blocks of its objects, and its own.
-/

namespace ValueCore.World

variable {ε : Type}

/-- Gives back the storage of tables. -/
def freeTables {κ : Type} (bucketBytes : Nat) (tables : Array (Table κ)) (m : Memory) : Memory :=
  tables.foldl (fun m t => m.releaseOption t.block (t.capacity * bucketBytes)) m

/-- Gives back the storage of views. -/
def freeViews (views : Array View) (m : Memory) : Memory :=
  views.foldl (fun m v =>
    (m.releaseOption v.bucketBlock (v.capacity * viewBucketBytes)).releaseOption v.entryBlock
      (v.entryCapacity * viewEntryBytes)) m

/-- Gives back the blocks of objects. -/
def freeObjects (objects : List (Block × Nat)) (m : Memory) : Memory :=
  objects.foldl (fun m (block, bytes) => m.release block bytes) m

/-- The ledger after the world is gone. The block of the world itself was never part of the
total. -/
def close (w : World ε) : Memory :=
  let m := freeViews w.views w.memory
  let m := freeTables KeyKind.any.bucketBytes w.anyTables m
  let m := freeTables KeyKind.text.bucketBytes w.textTables m
  let m := freeObjects w.objects m
  let m := m.release w.own stateBytes
  { m with total := m.total + stateBytes }

end ValueCore.World
