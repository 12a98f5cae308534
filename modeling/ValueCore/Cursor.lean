import ValueCore.Table.Access

/-!
# Cursors

A cursor walks over the items of a table in insertion order. While it is active the table is held, so
its contents stay; a cursor started on a frozen table does not hold it, as the contents stay anyway.
A cursor is released by finishing or dropping it, and only once. Moving a cursor passes its hold on,
and what is left behind keeps its position.
-/

namespace ValueCore

/-- A position in a table, and whether the cursor holds the table. -/
structure Cursor (kind : KeyKind) where
  table : TableId kind
  position : Option Nat
  holding : Bool

namespace Cursor

variable {ε : Type} {kind : KeyKind}

/-- A cursor before the first item. -/
def start (t : TableId kind) : Run ε (Cursor kind) := do
  let table ← readTable t
  let position := table.first
  if table.frozen then return ⟨t, position, false⟩
  modify (·.held t)
  return ⟨t, position, true⟩

/-- The item at the cursor and the cursor moved past it. A released cursor may find its slot emptied,
and then there is neither key nor value there and nothing after it. -/
def next (c : Cursor kind) : Run ε (Option (Option (kind.Key × Value)) × Cursor kind) := do
  match c.position with
  | none => return (none, c)
  | some i =>
    let entry := (← readTable c.table).slot i
    return (some (entry.map fun e => (e.key, e.value)),
      { c with position := entry.bind (·.after) })

/-- Releases the cursor's hold. -/
def finish (c : Cursor kind) : Run ε (Cursor kind) := do
  if c.holding then modify (·.letGo c.table)
  return { c with holding := false }

/-- Passes the hold on to a new cursor at the same place; what stays behind is released. -/
def move (c : Cursor kind) : Cursor kind × Cursor kind := (c, { c with holding := false })

end Cursor

end ValueCore
