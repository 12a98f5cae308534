import ValueCore.Script.Calls.Views

/-!
# Calls on structs
-/

namespace ValueCore.Script

variable (host : Host Session)

/-- The struct that a value is. -/
def structOf : Value → Act StructId
  | .struct s => pure s
  | _ => throw (.misuse (ascii "not a struct"))

/-- The dict that a value is. -/
def dictOf : Value → Act (TableId .any)
  | .dict t => pure t
  | _ => throw (.misuse (ascii "not a dict"))

/-- Keeps a result if a register is named for it, and shows it. -/
def keptAndShown (target : Option Name) (v : Value) : Act Reply := do
  keepIfNamed target v
  shown host v

/-- Length, truth, frozen flag, default constructor, type name, constructor and field table. -/
def describeStruct (s : StructId) : Act Reply := do
  let object := (← get).struct s
  let fields ← readTable object.fields
  let ctor ← shown host object.ctor
  return .list [.nat fields.length, .bool true, .bool fields.frozen,
    .bool (object.ctor = defaultConstructor), .bytes (Value.struct s).basicTypeName, ctor,
    shapeOf fields]

def runStructCall (refuse : Bool) : StructCall Value → Act Reply
  | .make positional fields target => do
    let s ← refusing refuse (makeStruct positional fields)
    keptAndShown host target (.struct s)
  | .create ctor fields target => do
    let s ← refusing refuse (createStruct ctor fields)
    keptAndShown host target (.struct s)
  | .merge x y target => do
    let x ← structOf x
    let y ← structOf y
    let s ← refusing refuse (mergeStructs host x y)
    keptAndShown host target (.struct s)
  | .field s name target => do
    let s ← structOf s
    let v ← refusing refuse (requireField host s name)
    keptAndShown host target v
  | .hasField s name => do
    let s ← structOf s
    return .bool (← refusing refuse (hasField s name))
  | .names s => do
    let s ← structOf s
    return .list ((← refusing refuse (fieldNames s)).map .bytes)
  | .equal x y depth => do
    let x ← structOf x
    let y ← structOf y
    return .bool (← refusing refuse (structsEqualWithin host depth x y))
  | .compare comparison x y depth => do
    let x ← structOf x
    let y ← structOf y
    return .bool (← refusing refuse (compareStructs host comparison depth x y))
  | .hash s => do
    let s ← structOf s
    return .nat (← refusing refuse (hashOfStruct host s)).toNat
  | .freeze s => do
    let s ← structOf s
    refusing refuse (freezeDeep host ((← get).struct s).fields)
    return .null
  | .text s => do
    let s ← structOf s
    return .bytes (← refusing refuse (displayStruct host s))
  | .dump s => do
    let s ← structOf s
    return .bytes (← refusing refuse (dumpTable host dumpAddress ((← get).struct s).fields))
  | .describe s => do describeStruct host (← structOf s)
  | .intoDict s d => do
    let s ← structOf s
    let t ← dictOf d
    refusing refuse (structIntoDict host s t)
    shown host d
  | .toView s target => do
    let s ← structOf s
    keepView target (← refusing refuse (viewOfStruct s))
    return .null

end ValueCore.Script
