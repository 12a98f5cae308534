import ValueCore.Equality
import ValueCore.Freeze
import ValueCore.View.Access

/-!
# Structs

A struct is a record of named fields with a constructor, a value that brands a class of structs. Its
fields are inserted in ascending order of their names when it is made and never change afterwards, so
reading them in insertion order reads them sorted: merging and comparing rely on it.
-/

namespace ValueCore

variable {ε : Type}

/-- A field as it is given to a constructor. -/
abbrev Field := Bytes × Value

/-- Size of a field in the list that is sorted. -/
def fieldBytes : Nat := 24

/-- Size of the object of a struct and of a dict, apart from what their tables ask for. -/
def structBytes : Nat := 424

def dictBytes : Nat := 472

/-- Fields in ascending order of their names. Fields of one name stay in the order given. -/
def sortFields (fields : List Field) : List Field := sortBy (·.1) fields

/-- An empty struct sized for `hint` fields. -/
def newStruct (ctor : Value) (hint : Nat) : Run ε StructId :=
  newObject structBytes do
    let fields ← newTable .text hint.toUInt32
    modifyGet fun w => (⟨w.structs.size⟩, { w with structs := w.structs.push ⟨ctor, fields⟩ })

/-- Puts fields into the table of a new struct, in the order given. -/
def fillFields (t : TableId .text) (fields : List Field) : Run ε Unit :=
  fields.forM fun (name, value) => insert textKeying t name value

/-- The fields of a struct in order. -/
def fieldsOf (s : StructId) : Run ε (List Field) := do
  let w ← get
  return (w.table (w.struct s).fields).items

/-- Makes a struct. Of several fields of one name the last one counts. -/
def createStruct (ctor : Value) (fields : List Field) : Run ε StructId :=
  withScratch fields.length fieldBytes do
    let s ← newStruct ctor fields.length
    fillFields ((← get).struct s).fields (sortFields fields)
    return s

/-- Makes a struct with the default constructor, from named fields only. -/
def makeStruct (positional : List Value) (fields : List Field) : Run ε StructId := do
  if !positional.isEmpty then raise .positionalArguments
  createStruct defaultConstructor fields

/-! ## Fields -/

/-- The value of a field. -/
def field? (s : StructId) (name : Bytes) : Run ε (Option Value) := do
  lookup textKeying ((← get).struct s).fields name

/-- The value of a field that must be there. -/
def requireField (host : Host ε) (s : StructId) (name : Bytes) : Run ε Value := do
  match ← field? s name with
  | some v => return v
  | none =>
    let ctor := ((← get).struct s).ctor
    let shown ← if ctor = defaultConstructor then pure none else some <$> display host ctor
    raise (.noAttribute shown name)

def hasField (s : StructId) (name : Bytes) : Run ε Bool :=
  return (← field? s name).isSome

/-- The names of the fields in order, as a list that takes memory while it is in use. -/
def fieldNames (s : StructId) : Run ε (List Bytes) := do
  keyList ((← get).struct s).fields

/-! ## Merging and comparing -/

/-- Puts `x` and what `rest` makes of the remaining list into the ascending list of the other
operand, whose field takes the place of `x` if it has the same name. -/
def weave (x : Field) (rest : List Field → List Field) : List Field → List Field
  | [] => x :: rest []
  | y :: ys =>
    match compare x.1 y.1 with
    | .lt => x :: rest (y :: ys)
    | .eq => y :: rest ys
    | .gt => y :: weave x rest ys

/-- The fields of two ascending lists in one ascending list. Of two fields of one name the second
list's is taken. -/
def mergeFields : List Field → List Field → List Field
  | [] => id
  | x :: xs => weave x (mergeFields xs)

/-- A struct with the fields of both, those of `y` taking precedence. The two must have equal
constructors, and the result has that of `x`. -/
def mergeStructs (host : Host ε) (x y : StructId) : Run ε StructId := do
  let a := (← get).struct x
  let b := (← get).struct y
  if ← sameConstructor (equal host) host .merge a.ctor b.ctor then
    let xs ← fieldsOf x
    let ys ← fieldsOf y
    let s ← newStruct a.ctor (xs.length + ys.length)
    fillFields ((← get).struct s).fields (mergeFields xs ys)
    return s
  else
    let left ← display host a.ctor
    let right ← display host b.ctor
    raise (.constructorMismatch left right)

/-- Applies a comparison operator. Structs can be equal or not, but have no order. -/
def compareStructs (host : Host ε) (comparison : Comparison) (depth : Int) (x y : StructId) :
    Run ε Bool :=
  match comparison with
  | .eq => structsEqualWithin host depth x y
  | .ne => do return !(← structsEqualWithin host depth x y)
  | _ => raise (.unordered comparison)

/-! ## Dicts, and conversions -/

/-- A new dict sized for `hint` entries. -/
def newDict (hint : UInt32) : Run ε (TableId .any) := newObject dictBytes (newTable .any hint)

/-- Adds an entry to a dict for each field of a struct. -/
def structIntoDict (host : Host ε) (s : StructId) (d : TableId .any) : Run ε Unit := do
  (← fieldsOf s).forM fun (name, value) => insert (valueKeying host) d (.str name) value

/-- A positional view of the fields of a struct. -/
def viewOfStruct (s : StructId) : Run ε ViewId := do
  viewOfTable ((← get).struct s).fields

end ValueCore
