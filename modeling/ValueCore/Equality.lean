import ValueCore.Display
import ValueCore.Hash

/-!
# Equality

Numbers are equal when they are the same number, dicts when they have the same keys with equal
values, structs when they have equal constructors and the same fields with equal values.

A comparison has a budget. Every step into the values of a dict or struct spends one unit, and a
comparison that has none left fails with `depthExceeded`: running out is an error, never an answer.
Keys of dicts and constructors of structs are compared with a full budget of their own.

An error in the comparison of two constructors is caught and raised again with the same status, in
words that tell which constructors were compared.
-/

namespace ValueCore

/-- The full budget. -/
def fullBudget : Int := 10

/-- Equality of numbers; `none` unless both values are numbers. -/
def numbersEqual? : Value → Value → Option Bool
  | .int i, .int j => some (i == j)
  | .float x, .float y => some (x.equal y)
  | .int i, .float x => some (x.equalInt i)
  | .float x, .int i => some (x.equalInt i)
  | _, _ => none

variable {ε : Type}

/-- Compares two constructors and, should that fail, tells which. -/
def sameConstructor (equal : Value → Value → Run ε Bool) (host : Host ε) (use : ConstructorUse)
    (x y : Value) : Run ε Bool := do
  match ← protect (equal x y) with
  | .ok verdict => return verdict
  | .error status =>
    let inner := (← get).message
    let left ← display host x
    let right ← display host y
    raise (.constructorComparison use status left right inner)

/-- Compares the items of a dict with what another dict has under the same keys. -/
def itemsEqual (equal : Value → Value → Run ε Bool) (get? : Value → Run ε (Option Value)) :
    List (Value × Value) → Run ε Bool
  | [] => pure true
  | (key, x) :: rest => do
    match ← get? key with
    | none => return false
    | some y => if ← equal x y then itemsEqual equal get? rest else return false

/-- Compares two dicts: keys by `keying`, values by `equal`. The first dict is held in place. -/
def dictsEqual (keying : Keying ε Value) (equal : Value → Value → Run ε Bool)
    (x y : TableId .any) : Run ε Bool := do
  if (← readTable x).length != (← readTable y).length then return false
  holding x do
    itemsEqual equal (lookup keying y) (← readTable x).items

/-- Compares two lists of fields in order. -/
def fieldsEqual (equal : Value → Value → Run ε Bool) :
    List (Bytes × Value) → List (Bytes × Value) → Run ε Bool
  | [], _ => pure true
  | _, [] => pure false
  | (m, x) :: xs, (n, y) :: ys => do
    if m != n then return false
    if ← equal x y then fieldsEqual equal xs ys else return false

/-- Compares two structs: constructors by `equalFully`, field values by `equal`. -/
def structsEqual (equalFully equal : Value → Value → Run ε Bool) (host : Host ε)
    (x y : StructId) : Run ε Bool := do
  let w ← get
  let a := w.struct x
  let b := w.struct y
  if (w.table a.fields).length != (w.table b.fields).length then return false
  if ← sameConstructor equalFully host .equality a.ctor b.ctor then
    let w ← get
    fieldsEqual equal (w.table a.fields).items (w.table b.fields).items
  else return false

/-- Compares two values with a budget of `depth`, in `fuel` nested steps. -/
def equalAt (host : Host ε) : Nat → Int → Value → Value → Run ε Bool
  | 0, _, _, _ => throw .exhausted
  | fuel + 1, depth, x, y => do
    if depth < 1 then raise .depthExceeded
    match numbersEqual? x y with
    | some verdict => return verdict
    | none =>
      let equalFully := equalAt host fuel fullBudget
      let equalBelow := equalAt host fuel (depth - 1)
      match x, y with
      | .none, .none => return true
      | .bool a, .bool b => return a == b
      | .str a, .str b => return a == b
      | .dict a, .dict b =>
        if a = b then return true
        dictsEqual ⟨hashValue host, equalFully⟩ equalBelow a b
      | .struct a, .struct b => structsEqual equalFully equalBelow host a b
      | .host a, .host b =>
        if host.sameClass a b (← get) then host.equal a b depth else return false
      | _, _ => return false

/-- How many nested steps a comparison may take: the budget, and a full budget for each time it is
renewed. It is renewed at a constructor, which nest no deeper than there are structs, and at a key,
whose parts hold no dict outside of constructors. Structs that the host makes meanwhile are allowed
for. -/
def comparisonFuel (w : World ε) (depth : Int) : Nat := depth.toNat + 32 * (w.structs.size + 128)

/-- Compares two values with a budget. -/
def equalWithin (host : Host ε) (depth : Int) (x y : Value) : Run ε Bool := do
  equalAt host (comparisonFuel (← get) depth) depth x y

/-- Compares two values with the full budget. -/
def equal (host : Host ε) (x y : Value) : Run ε Bool := equalWithin host fullBudget x y

/-- Values as keys. -/
def valueKeying (host : Host ε) : Keying ε (KeyKind.Key .any) where
  hash := hashValue host
  equal := equal host

/-- How the keys of tables of each kind are hashed and compared. -/
def keyingOf (host : Host ε) : (kind : KeyKind) → Keying ε kind.Key
  | .any => valueKeying host
  | .text => textKeying

/-- Compares two dicts with a budget, without the short cut for a dict and itself. -/
def dictsEqualWithin (host : Host ε) (depth : Int) (x y : TableId .any) : Run ε Bool :=
  dictsEqual (valueKeying host) (equalWithin host (depth - 1)) x y

/-- Compares two structs with a budget. The budget is spent on the values of fields only. -/
def structsEqualWithin (host : Host ε) (depth : Int) (x y : StructId) : Run ε Bool :=
  structsEqual (equal host) (equalWithin host (depth - 1)) host x y

end ValueCore
