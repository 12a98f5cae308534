import ValueCore.Script.Build

/-!
# Calls on values

What the calls on values, registers and strings do and answer. `refuse` tells whether the allocator
refuses everything while the core is at work on the call; showing the result is not part of that.
-/

namespace ValueCore.Script

variable (host : Host Session)

/-- A value as it is shown. -/
def shown (v : Value) : Act Reply := return .bytes (← display host v)

/-- A value as it is shown, if there is one. -/
def shownOption (v : Option Value) : Act Reply :=
  match v with
  | some v => return .option (some (← shown host v))
  | none => return .option none

/-- Keeps a value in a register. -/
def keepValue (target : Name) (v : Value) : Act Unit :=
  updateSession fun s => { s with values := s.values.set target v }

/-- Keeps a value if a register is named for it. -/
def keepIfNamed (target : Option Name) (v : Value) : Act Unit :=
  match target with
  | some name => keepValue name v
  | none => pure ()

/-- Are the contents of the value frozen? Only containers can be. -/
def isFrozen? (w : World Session) : Value → Option Bool
  | .dict t => some (w.table t).frozen
  | .struct s => some (w.table (w.struct s).fields).frozen
  | _ => none

/-- Minus one, zero or one. -/
def signOf : Ordering → Int
  | .lt => -1
  | .eq => 0
  | .gt => 1

def runValueCall (refuse : Bool) : ValueCall Value → Act Reply
  | .keep target v quiet => do
    keepValue target v
    if quiet then return .null else shown host v
  | .display v => refusing refuse (shown host v)
  | .describeType v => do
    return .list [.bytes (host.typeNameOf (← get) v), .nat v.typeIndex,
      .bytes (Value.typeNameAt v.typeIndex), .bool v.isObject]
  | .hash v => return .nat (← refusing refuse (hashValue host v)).toNat
  | .equal x y depth =>
    return .bool (← refusing refuse (equalWithin host (depth.getD fullBudget) x y))
  | .freeze v => do
    refusing refuse (freeze host v)
    return .null
  | .isFrozen v => return match isFrozen? (← get) v with
    | some b => .bool b
    | none => .null
  | .compareStrings x y =>
    match x, y with
    | .str x, .str y =>
      return .list [.int (signOf (compare x y)), .bool (x == y), .bool (compare x y == .lt)]
    | _, _ => throw (.misuse (ascii "not a string"))
  | .measureString s cut => do
    let s := if cut then s.untilNul else s
    let _ ← refusing refuse (newString s)
    return .list [.nat s.length, .nat s.fnv1a.toNat, .nat s.untilNul.length]

end ValueCore.Script
