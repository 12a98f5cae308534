import ValueCore.Script.Calls.Tables

/-!
# Calls on views
-/

namespace ValueCore.Script

variable (host : Host Session)

/-- Length and chains. -/
def viewShape (v : View) : Reply := .list [.nat v.length, .nat v.heads]

/-- A key as it is and its value as it is shown. -/
def shownField (item : Bytes × Value) : Act Reply :=
  return .list [.bytes item.1, ← shown host item.2]

/-- Appends a labelled number for each number of a list. -/
def fillView (refuse : Bool) (v : ViewId) (label : Bytes) (hash : Option UInt32) :
    List Int → Act Unit
  | [] => pure ()
  | i :: rest => do
    let key := label ++ Bytes.decimal i
    let _ ← newString key
    refusing refuse (appendHashed v (hash.getD key.fnv1a) key (.int (Int64.ofInt i)))
    fillView refuse v label hash rest

def runViewCallOn (refuse : Bool) (v : ViewId) : ViewCall Value → Act Reply
  | .resize hint => do
    refusing refuse (resizeView v hint)
    return .null
  | .append key value hash => do
    refusing refuse (appendHashed v (hash.getD key.fnv1a) key value)
    return .null
  | .fill start stop label hash => do
    let points := Span.points ⟨start, stop, 1⟩
    fillView refuse v label hash points
    return .nat points.length
  | .get key => do shownOption host ((← readView v).get? key)
  | .has key => return .bool ((← readView v).get? key).isSome
  | .set key value => return .bool (← setEntry v key value)
  | .valueAt index => do shown host (← refusing refuse (entryAt v index)).value
  | .itemAt index => do
    let e ← refusing refuse (entryAt v index)
    shownField host (e.key, e.value)
  | .keyAt index => return .bytes (← refusing refuse (entryAt v index)).key
  | .length => return .nat (← readView v).length
  | .keys => return .list ((← refusing refuse (viewKeyList v)).map .bytes)
  | .range stop => do
    let items := visited (fun key => stop != some key) (← readView v).items
    return .list (← items.mapM (shownField host))
  | .dump => return .bytes (← refusing refuse (dumpView host dumpAddress v))

def runViewCall (refuse : Bool) (name : Name) (call : ViewCall Value) : Act Reply := do
  match (← session).views.get? name with
  | some v => runViewCallOn host refuse v call
  | none => throw (.misuse (ascii "no such view"))

/-- Puts a view into a register. -/
def keepView (target : Name) (v : ViewId) : Act Unit :=
  updateSession fun s => { s with views := s.views.set target v }

def runNewView (refuse : Bool) (target : Name) (hint : UInt32) : Act Reply := do
  keepView target (← refusing refuse (newView hint))
  return .null

end ValueCore.Script
