import ValueCore.Binary64

/-!
# Values

A value is a scalar or refers to an object of the world: a dict, a struct or a value defined by the
host. Strings are scalars here, because nothing can tell two strings of equal contents apart; dicts,
structs and host values have an identity, which is the index they are stored under.

Tables come in two kinds. In a table of kind `any` every hashable value may be a key; in a table of
kind `text` the keys are byte strings. A dict is a table of the first kind, the fields of a struct
are a table of the second.
-/

namespace ValueCore

/-- What the keys of a table are. -/
inductive KeyKind where
  | any
  | text
  deriving DecidableEq

/-- Index of a table among those of its kind. -/
structure TableId (kind : KeyKind) where
  index : Nat
  deriving DecidableEq

/-- Index of a struct. -/
structure StructId where
  index : Nat
  deriving DecidableEq

/-- Index of a positional view. -/
structure ViewId where
  index : Nat
  deriving DecidableEq

/-- Index under which the host keeps one of its own values. -/
structure HostId where
  index : Nat
  deriving DecidableEq

/-- A value of the configuration language. -/
inductive Value where
  | none
  | bool (b : Bool)
  | int (i : Int64)
  | float (x : Binary64)
  | str (s : Bytes)
  | dict (table : TableId .any)
  | struct (id : StructId)
  | host (id : HostId)
  deriving DecidableEq, Inhabited

/-- The type of the keys of a table. -/
abbrev KeyKind.Key : KeyKind → Type
  | .any => Value
  | .text => Bytes

namespace Value

/-- Position of the type of a value in the list of types. -/
def typeIndex : Value → Nat
  | .none => 0
  | .bool _ => 1
  | .int _ => 2
  | .float _ => 3
  | .str _ => 4
  | .dict _ => 5
  | .struct _ => 6
  | .host _ => 7

/-- Names of the types, in order. -/
def typeNames : List Bytes :=
  [ascii "NoneType", ascii "bool", ascii "int", ascii "float", ascii "string", ascii "dict",
    ascii "struct", ascii "userdata"]

/-- Name of a type given by number; a number outside the list names no value. -/
def typeNameAt (n : Int) : Bytes :=
  if n < 0 then ascii "no value" else (typeNames[n.toNat]?).getD (ascii "no value")

/-- Name of the type of a value, host values taken together. -/
def basicTypeName (v : Value) : Bytes := typeNameAt v.typeIndex

/-- Does the value refer to an object that the world owns? -/
def isObject (v : Value) : Bool := 4 ≤ v.typeIndex

end Value

/-- The comparison operators. -/
inductive Comparison where
  | eq
  | ne
  | lt
  | le
  | gt
  | ge
  deriving DecidableEq

/-- The operator as it is written. -/
def Comparison.symbol : Comparison → Bytes
  | .eq => ascii "=="
  | .ne => ascii "!="
  | .lt => ascii "<"
  | .le => ascii "<="
  | .gt => ascii ">"
  | .ge => ascii ">="

end ValueCore
