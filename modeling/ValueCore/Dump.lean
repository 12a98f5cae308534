import ValueCore.Struct

/-!
# Dumps

A dump is the whole storage of a table or a view as text, chain by chain, for people who debug it.
It is printed piece by piece, and a piece ends at its first NUL byte, the end of its line included.
-/

namespace ValueCore

variable {ε : Type}

/-- A position as dumps write it: -1 stands for none. -/
def positionText : Option Nat → Bytes
  | some i => Bytes.decimalNat i
  | none => ascii "-1"

/-- One piece of a dump: a line, as far as its first NUL byte. -/
def dumpLine (line : Bytes) : Bytes := (line ++ ascii "\n").untilNul

/-- The line of a slot. -/
def slotLine (host : Host ε) {kind : KeyKind} (slot : Nat) (entry : Option (Entry kind.Key)) :
    Run ε Bytes := do
  let head := ascii "\tentry " ++ Bytes.decimalNat slot ++ ascii " hash="
  match entry with
  | none => return dumpLine (head ++ ascii "0")
  | some e =>
    let key ← displayKey host kind e.key
    let value ← display host e.value
    return dumpLine (head ++ Bytes.decimalNat e.hash.toNat ++ ascii " key=" ++ key ++
      ascii " value=" ++ value ++ ascii " prev=" ++ positionText e.before ++
      ascii " next=" ++ positionText e.after)

/-- The lines of a bucket. -/
def bucketLines (host : Host ε) {kind : KeyKind} (table : Table kind.Key) (bucket : Nat) :
    Run ε Bytes := do
  let lines ← (Table.bucketSlots bucket).mapM fun i => slotLine host i (table.slot i)
  return dumpLine (ascii "bucket " ++ Bytes.decimalNat bucket) ++ lines.flatten

/-- The lines of a chain. -/
def chainLines (head : Nat) (body : List Bytes) : Bytes :=
  dumpLine (ascii "bucket chain " ++ Bytes.decimalNat head) ++ body.flatten

/-- The storage of a table, which is said to be at `address`. -/
def dumpTable (host : Host ε) (address : Bytes) {kind : KeyKind} (t : TableId kind) :
    Run ε Bytes := do
  let table ← readTable t
  let heading := dumpLine <|
    ascii "hashtable " ++ address ++ ascii " len=" ++ Bytes.decimalNat table.length ++
    ascii " heads=" ++ Bytes.decimalNat table.heads ++
    ascii " buckets=" ++ Bytes.decimalNat table.used ++
    ascii " head=" ++ positionText table.first ++ ascii " tail=" ++ positionText table.last
  let chains ← (List.range table.heads).mapM fun head => do
    return chainLines head (← (table.chain head).mapM (bucketLines host table))
  return heading ++ chains.flatten

/-- The line of an entry of a view. -/
def viewEntryLine (host : Host ε) (view : View) (position : Nat) : Run ε Bytes := do
  match view.entries[position]? with
  | none => return []
  | some e =>
    let value ← display host e.value
    return dumpLine (ascii "\tentry " ++ Bytes.decimalNat position ++ ascii " hash=" ++
      Bytes.decimalNat e.hash.toNat ++ ascii " key=" ++ e.key ++ ascii " value=" ++ value)

/-- The index of a view, which is said to be at `address`. -/
def dumpView (host : Host ε) (address : Bytes) (v : ViewId) : Run ε Bytes := do
  let view ← readView v
  let heading := dumpLine <|
    ascii "view " ++ address ++ ascii " len=" ++ Bytes.decimalNat view.length ++
    ascii " heads=" ++ Bytes.decimalNat view.heads ++
    ascii " buckets=" ++ Bytes.decimalNat view.used
  let chains ← (List.range view.heads).mapM fun head => do
    return chainLines head (← (view.chainPositions head).mapM (viewEntryLine host view))
  return heading ++ chains.flatten

end ValueCore
