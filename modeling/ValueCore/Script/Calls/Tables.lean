import ValueCore.Dump
import ValueCore.Script.Calls.Values

/-!
# Calls on tables and cursors

The same calls serve tables of values, tables of byte strings and dicts. A key given as a value must
be a string where keys are byte strings.
-/

namespace ValueCore.Script

/-- What a dump gives as the address of what it shows. -/
def dumpAddress : Bytes := ascii "PTR"

/-- A value as a key. -/
def keyOf : (kind : KeyKind) → Value → Act kind.Key
  | .any, v => pure v
  | .text, .str s => pure s
  | .text, _ => throw (.misuse (ascii "not a string key"))

/-- Length, frozen flag, chains, buckets, first and last slot. -/
def shapeOf {κ : Type} (t : Table κ) : Reply :=
  .list [.nat t.length, .bool t.frozen, .nat t.heads, .nat t.used, .position t.first,
    .position t.last]

variable (host : Host Session)

/-- A key as it is shown. -/
def shownKey (kind : KeyKind) (key : kind.Key) : Act Reply :=
  return .bytes (← displayKey host kind key)

/-- A key and a value as they are shown. -/
def shownItem (kind : KeyKind) (item : kind.Key × Value) : Act Reply := do
  let key ← shownKey host kind item.1
  let value ← shown host item.2
  return .list [key, value]

/-- What a released cursor shows of an emptied slot. -/
def emptyKey : KeyKind → Reply
  | .any => .bytes (ascii "None")
  | .text => .bytes []

/-! ## Fills -/

/-- The numbers of a span. A stride that is not positive leads nowhere. -/
def Span.points (s : Span) : List Int :=
  if s.stride ≤ 0 then []
  else
    let count := (s.stop - s.start + s.stride - 1) / s.stride
    (List.range count.toNat).map fun (k : Nat) => s.start + k * s.stride

/-- The key that a fill makes of a number. -/
def fillKey (kind : KeyKind) (keys : FillKeys) (i : Int) : Act kind.Key :=
  let numbered := newString (keys.label ++ Bytes.decimal i)
  match kind with
  | .text => do keyOf .text (← numbered)
  | .any =>
    match keys.pattern with
    | .numbered => numbered
    | .multiples factor => pure (.int (Int64.ofInt (i * factor)))
    | .colliding hash => newHost (.colliding i hash)

/-- Inserts a key for each number. -/
def fillTable (refuse : Bool) {kind : KeyKind} (t : TableId kind) (keys : FillKeys) :
    List Int → Act Unit
  | [] => pure ()
  | i :: rest => do
    let key ← fillKey kind keys i
    refusing refuse (insert (keyingOf host kind) t key (.int (Int64.ofInt i)))
    fillTable refuse t keys rest

/-- Erases the key of each number and counts those that were found. -/
def drainTable (refuse : Bool) {kind : KeyKind} (t : TableId kind) (keys : FillKeys) (found : Nat) :
    List Int → Act Nat
  | [] => pure found
  | i :: rest => do
    let key ← fillKey kind keys i
    let removed ← refusing refuse (erase (keyingOf host kind) t key)
    drainTable refuse t keys (if removed.isSome then found + 1 else found) rest

/-! ## Cursors -/

/-- Puts a cursor into a register. One that was there before is dropped. -/
def keepCursor (target : Name) (c : AnyCursor) : Act Unit := do
  match (← session).cursors.get? target with
  | some old => let _ ← old.cursor.finish
  | none => pure ()
  updateSession fun s => { s with cursors := s.cursors.set target c }

/-- Puts back a cursor that was moved on or released. -/
def putCursor (name : Name) {kind : KeyKind} (c : Cursor kind) : Act Unit :=
  updateSession fun s => { s with cursors := s.cursors.set name ⟨kind, c⟩ }

def runCursorCall (name : Name) (call : CursorCall) : Act Reply := do
  match (← session).cursors.get? name with
  | none => throw (.misuse (ascii "no such cursor"))
  | some ⟨kind, cursor⟩ =>
    match call with
    | .next =>
      let (item, moved) ← cursor.next
      putCursor name moved
      match item with
      | none => return .list []
      | some (some item) => shownItem host kind item
      | some none => return .list [emptyKey kind, ← shown host .none]
    | .nextKey =>
      let (item, moved) ← cursor.next
      putCursor name moved
      match item with
      | none => return .list []
      | some (some item) => return .list [← shownKey host kind item.1]
      | some none => return .list [emptyKey kind]
    | .finish =>
      putCursor name (← cursor.finish)
      return .null
    | .drop =>
      let _ ← cursor.finish
      updateSession fun s => { s with cursors := s.cursors.drop name }
      return .null
    | .move target =>
      let (moved, left) := cursor.move
      putCursor name left
      keepCursor target ⟨kind, moved⟩
      return .null

/-! ## Tables -/

/-- A slot as it is stored. -/
def shownSlot {kind : KeyKind} (entry : Option (Entry kind.Key)) : Act Reply :=
  match entry with
  | none => return .list [.nat 0, .position none, .position none, .null, ← shown host .none]
  | some e => do
    let key ← shownKey host kind e.key
    let value ← shown host e.value
    return .list [.nat e.hash.toNat, .position e.before, .position e.after, key, value]

def runTableCallOn (refuse : Bool) {kind : KeyKind} (t : TableId kind) :
    TableCall Value → Act Reply
  | .resize hint => do
    refusing refuse (resizeTable t hint)
    return .null
  | .insert key value => do
    let key ← keyOf kind key
    refusing refuse (insert (keyingOf host kind) t key value)
    return .null
  | .get key => do
    let key ← keyOf kind key
    shownOption host (← refusing refuse (lookup (keyingOf host kind) t key))
  | .has key => do
    let key ← keyOf kind key
    return .bool (← refusing refuse (lookup (keyingOf host kind) t key)).isSome
  | .erase key quiet => do
    let key ← keyOf kind key
    let removed ← refusing refuse (erase (keyingOf host kind) t key)
    if quiet then return .bool removed.isSome else shownOption host removed
  | .clear => do
    refusing refuse (clear t)
    return .null
  | .freeze => do
    refusing refuse (freezeDeep host t)
    return .null
  | .length => return .nat (← readTable t).length
  | .isFrozen => return .bool (← readTable t).frozen
  | .shape => return shapeOf (← readTable t)
  | .keys => do
    let keys ← refusing refuse (keyList t)
    return .list (← keys.mapM (shownKey host kind))
  | .items => do
    let items ← refusing refuse (itemList t)
    return .list (← items.mapM (shownItem host kind))
  | .first => do
    match (← readTable t).firstKey with
    | some key => return .option (some (← shownKey host kind key))
    | none => return .option none
  | .entry index => do shownSlot host ((← readTable t).slot index.toNat)
  | .dump => return .bytes (← refusing refuse (dumpTable host dumpAddress t))
  | .fill span keys => do
    fillTable host refuse t keys span.points
    return .nat span.points.length
  | .drain span keys => return .nat (← drainTable host refuse t keys 0 span.points)
  | .startCursor target => do
    let c ← Cursor.start t
    keepCursor target ⟨kind, c⟩
    return .null
  | .toView target =>
    match kind with
    | .any => throw (.misuse (ascii "not a table of byte strings"))
    | .text => do
      let v ← refusing refuse (viewOfTable t)
      updateSession fun s => { s with views := s.views.set target v }
      return .null

def runTableCall (refuse : Bool) (name : Name) (call : TableCall Value) : Act Reply := do
  match (← session).table? name with
  | some ⟨_, t⟩ => runTableCallOn host refuse t call
  | none => throw (.misuse (ascii "no such table"))

def runNewTable (refuse : Bool) (kind : KeyKind) (target : Name) (hint : UInt32) : Act Reply := do
  let t ← refusing refuse (newTable kind hint)
  updateSession fun s => { s with tables := s.tables.set target ⟨kind, t⟩ }
  return .null

end ValueCore.Script
