import ValueCore.Script.Session

/-!
# Making values

Carrying out the expressions of a script. Everything is made in the order in which it is written: the
constructor of a struct before its fields, a key before its value.
-/

namespace ValueCore.Script

/-- Size of a host value. -/
def hostBytes : Nat := 128

/-- Takes memory for a host value and answers with it. -/
def newHost (h : HostObject) : Act Value :=
  newObject hostBytes <| modifyGet fun w =>
    (.host ⟨w.env.hosts.size⟩, { w with env := { w.env with hosts := w.env.hosts.push h } })

/-- The value in a register. -/
def registerValue (name : Name) : Act Value := do
  match (← session).values.get? name with
  | some v => return v
  | none => throw (.misuse (ascii "no such value"))

mutual

/-- Makes a value. -/
def build (host : Host Session) : Expr → Act Value
  | .none => pure .none
  | .bool b => pure (.bool b)
  | .int i => pure (.int i)
  | .float x => pure (.float x)
  | .str s => newString s
  | .register name => registerValue name
  | .dict hint items => do
    let d ← newDict hint
    buildItems host d items
    return .dict d
  | .struct fields => do
    let fields ← buildFields host fields
    return .struct (← makeStruct [] fields)
  | .branded ctor fields => do
    let ctor ← build host ctor
    let fields ← buildFields host fields
    return .struct (← createStruct ctor fields)
  | .host h => buildHost host h

/-- Makes the items of a new dict, setting each before the next is made. -/
def buildItems (host : Host Session) (d : TableId .any) : List (Expr × Expr) → Act Unit
  | [] => pure ()
  | (key, value) :: rest => do
    let key ← build host key
    let value ← build host value
    insert (valueKeying host) d key value
    buildItems host d rest

/-- Makes the values of fields. -/
def buildFields (host : Host Session) : List (Bytes × Expr) → Act (List Field)
  | [] => pure []
  | (name, value) :: rest => do
    let value ← build host value
    let rest ← buildFields host rest
    return (name, value) :: rest

/-- Makes a host value. -/
def buildHost (host : Host Session) : HostExpr → Act Value
  | .plain name => newHost (.plain name)
  | .symbol name => newHost (.symbol name)
  | .colliding id hash => newHost (.colliding id hash)
  | .faulty name code text hash => newHost (.faulty name code text hash)
  | .box name content hash => do
    let content ← build host content
    newHost (.box name content hash)
  | .hook name hash verdict onHash onEqual onFreeze =>
    newHost (.hook name hash verdict onHash onEqual onFreeze)

end

end ValueCore.Script
