import ValueCore.Host
import ValueCore.Table.Access

/-!
# Hashing

The 32-bit hash of a value. Numbers that are equal hash alike, whether written as integers or as
floats; strings hash by their contents; a struct mixes the hashes of its fields in order, which is
the order of their names, and leaves its constructor out. Dicts are not hashable, and neither is a
struct that has one among its fields.
-/

namespace ValueCore

/-- Hash of an integer. -/
def hashInt (i : Int64) : UInt32 := 12582917 * (i.toUInt64.toUInt32 + 3)

/-- Hash of a float: that of the integer it equals, else a fold of its bits. -/
def hashFloat (x : Binary64) : UInt32 :=
  match x.toInt64? with
  | some i => hashInt i
  | none => x.foldedBits

/-- State of a struct hash: the hash so far and the multiplier for the next field. -/
structure StructHash where
  hash : UInt32 := 8731
  multiplier : UInt32 := 9839

/-- Mixes in a field. -/
def StructHash.mix (s : StructHash) (name : Bytes) (value : UInt32) : StructHash where
  hash := (s.hash ^^^ (3 * name.fnv1a)) ^^^ (value * s.multiplier)
  multiplier := s.multiplier + 7349

variable {ε : Type}

/-- Hash of fields whose values are hashed by `hash`. -/
def hashFields (hash : Value → Run ε UInt32) : List (Bytes × Value) → StructHash → Run ε UInt32
  | [], s => pure s.hash
  | (name, value) :: rest, s => do
    let h ← hash value
    hashFields hash rest (s.mix name h)

/-- Hash of a struct whose parts are hashed by `hash`. -/
def hashStruct (hash : Value → Run ε UInt32) (s : StructId) : Run ε UInt32 := do
  let w ← get
  hashFields hash (w.table (w.struct s).fields).items {}

/-- Hash of a value with structs nested less than `fuel` deep. -/
def hashAt (host : Host ε) : Nat → Value → Run ε UInt32
  | 0, _ => throw .exhausted
  | fuel + 1, v =>
    match v with
    | .none => pure 0
    | .bool b => pure (if b then 1 else 0)
    | .int i => pure (hashInt i)
    | .float x => pure (hashFloat x)
    | .str s => pure s.fnv1a
    | .struct s => hashStruct (hashAt host fuel) s
    | .host h => host.hash h
    | .dict _ => do raise (.unhashable (host.typeNameOf (← get) v))

/-- Hash of a value. The fields of a struct were there before it, so structs nest no deeper than
there are structs. -/
def hashValue (host : Host ε) (v : Value) : Run ε UInt32 := do
  hashAt host ((← get).structs.size + 2) v

/-- Hash of a struct. -/
def hashOfStruct (host : Host ε) (s : StructId) : Run ε UInt32 := hashValue host (.struct s)

end ValueCore
