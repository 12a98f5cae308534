import ValueCore.Value

/-!
# Faults

A fault is the cause of an error: what went wrong, with the data that its report mentions. It
determines a `Status`, which is what a caught error answers with, and a message. All wordings are
in `Fault.message`.

Messages live in a buffer of fixed size: every text put into one ends at its first NUL byte, and the
whole is cut at 511 bytes (`clip`).
-/

namespace ValueCore

/-- What kind of error happened. The host may raise codes of its own. -/
inductive Status where
  | runtime
  | memory
  | unhashable
  | frozen
  | iterating
  | noAttribute
  | constructorMismatch
  | duplicateKey
  | depthExceeded
  | other (code : Int)
  deriving DecidableEq

namespace Status

/-- The status with a numeric code; codes outside 1 to 9 have no meaning of their own. -/
def ofCode (code : Int) : Status :=
  if code = 1 then .runtime else if code = 2 then .memory else if code = 3 then .unhashable
  else if code = 4 then .frozen else if code = 5 then .iterating else if code = 6 then .noAttribute
  else if code = 7 then .constructorMismatch else if code = 8 then .duplicateKey
  else if code = 9 then .depthExceeded else .other code

def name : Status → Bytes
  | .runtime => ascii "runtime error"
  | .memory => ascii "memory error"
  | .unhashable => ascii "unhashable"
  | .frozen => ascii "frozen"
  | .iterating => ascii "iteration in progress"
  | .noAttribute => ascii "no such attribute"
  | .constructorMismatch => ascii "constructor mismatch"
  | .duplicateKey => ascii "duplicate key"
  | .depthExceeded => ascii "depth exceeded"
  | .other _ => ascii "unknown status"

/-- Name of the outcome with a numeric code, 0 being success. -/
def nameOfCode (code : Int) : Bytes := if code = 0 then ascii "ok" else (ofCode code).name

end Status

/-! ## Causes -/

/-- The changes of a table that can be refused. -/
inductive TableChange where
  | insert
  | erase
  | clear
  deriving DecidableEq

def TableChange.phrase : TableChange → Bytes
  | .insert => ascii "insert into"
  | .erase => ascii "delete from"
  | .clear => ascii "clear"

/-- What two struct constructors were being compared for. -/
inductive ConstructorUse where
  | equality
  | merge
  deriving DecidableEq

/-- Why an operation failed. -/
inductive Fault where
  /-- The allocator refused a request. -/
  | outOfMemory
  /-- The size of a request does not fit a machine word. -/
  | blockTooBig
  /-- A table or view would need more chains or buckets than the limit. -/
  | tableOverflow
  | unhashable (typeName : Bytes)
  | frozenTable (change : TableChange)
  | iterating (change : TableChange)
  | depthExceeded
  | duplicateKey (key : Bytes)
  | indexOutOfRange (index : Int) (length : Nat)
  | positionalArguments
  /-- A struct has no such field; the constructor is told when it is not the default one. -/
  | noAttribute (constructor : Option Bytes) (name : Bytes)
  | constructorMismatch (left right : Bytes)
  /-- Comparing two constructors failed with `status` and the message `inner`. -/
  | constructorComparison (use : ConstructorUse) (status : Status) (left right inner : Bytes)
  /-- Structs have no order. -/
  | unordered (comparison : Comparison)
  /-- An error raised by the host in its own words. -/
  | reported (status : Status) (text : Bytes)
  /-- A host error whose text is put together from a text and two numbers. -/
  | reportedWith (text : Bytes) (signed : Int) (unsigned : Nat)
  deriving DecidableEq

/-- Longest message kept. -/
def messageLimit : Nat := 511

/-- A message as the buffer keeps it. -/
def clip (text : Bytes) : Bytes := text.take messageLimit

namespace Fault

def status : Fault → Status
  | .outOfMemory | .blockTooBig | .tableOverflow => .memory
  | .unhashable _ => .unhashable
  | .frozenTable _ => .frozen
  | .iterating _ => .iterating
  | .depthExceeded => .depthExceeded
  | .duplicateKey _ => .duplicateKey
  | .indexOutOfRange .. | .positionalArguments | .unordered _ | .reportedWith .. => .runtime
  | .noAttribute .. => .noAttribute
  | .constructorMismatch .. => .constructorMismatch
  | .constructorComparison _ status .. => status
  | .reported status _ => status

/-- The wording of a fault before it is cut to length. A text that it quotes ends at its first NUL
byte. -/
def wording : Fault → Bytes
  | .outOfMemory => ascii "not enough memory"
  | .blockTooBig => ascii "memory allocation error: block too big"
  | .tableOverflow => ascii "table overflow"
  | .unhashable typeName => ascii "unhashable type: " ++ typeName.untilNul
  | .frozenTable change => ascii "cannot " ++ change.phrase ++ ascii " frozen hash table"
  | .iterating change => ascii "cannot " ++ change.phrase ++ ascii " hash table during iteration"
  | .depthExceeded => ascii "comparison exceeded maximum recursion depth"
  | .duplicateKey key => ascii "duplicate key " ++ key.untilNul
  | .indexOutOfRange index length =>
    ascii "view index " ++ Bytes.decimal index ++ ascii " out of range [0, " ++
      Bytes.decimalNat length ++ ascii ")"
  | .positionalArguments => ascii "struct: unexpected positional arguments"
  | .noAttribute constructor name =>
    (match constructor with
      | some c => (c ++ ascii " ").untilNul
      | none => []) ++ ascii "struct has no ." ++ name.untilNul ++ ascii " attribute"
  | .constructorMismatch left right =>
    ascii "cannot add structs of different constructors: " ++ left.untilNul ++ ascii " + " ++
      right.untilNul
  | .constructorComparison .equality _ left right inner =>
    ascii "error comparing struct constructors " ++ left.untilNul ++ ascii " and " ++
      right.untilNul ++ ascii ": " ++ inner.untilNul
  | .constructorComparison .merge _ left right inner =>
    ascii "in " ++ left.untilNul ++ ascii " + " ++ right.untilNul ++
      ascii ": error comparing constructors: " ++ inner.untilNul
  | .unordered comparison =>
    ascii "struct " ++ comparison.symbol ++ ascii " struct not implemented"
  | .reported _ text => text.untilNul
  | .reportedWith text signed unsigned =>
    ascii "<" ++ text.untilNul ++ ascii "|" ++ Bytes.decimal signed ++ ascii "|" ++
      Bytes.decimalNat unsigned ++ ascii ">"

/-- The message that reports a fault. -/
def message (f : Fault) : Bytes := clip f.wording

end Fault

end ValueCore
