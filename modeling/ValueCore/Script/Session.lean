import ValueCore.Cursor
import ValueCore.Script.Syntax
import ValueCore.Struct

/-!
# Sessions

The state of a running script beside the core itself: named registers, the host values made so far
and the trace of calls to them. It is the host's part of the world, so that calls back into the host
find it there.

The answer to a step is data as well. It tells how the step ended, the shape of the table or view the
step names, and what happened to host values meanwhile; a hook's own steps appear there with answers
of their own.
-/

namespace ValueCore.Script

/-! ## Answers -/

/-- What a call answers with. -/
inductive Reply where
  | null
  | bool (b : Bool)
  | int (i : Int)
  | bytes (b : Bytes)
  | list (items : List Reply)
  deriving Inhabited

namespace Reply

def nat (n : Nat) : Reply := .int n

/-- A list of one item or of none. -/
def option (r : Option Reply) : Reply := .list r.toList

/-- A position, -1 when there is none. -/
def position : Option Nat → Reply
  | some i => .int i
  | none => .int (-1)

end Reply

/-- How a step ended. -/
inductive Outcome where
  | success (reply : Reply)
  | failure (status : Status) (message : Bytes)
  /-- The script itself is at fault: it names a register that is not there, or uses it wrongly. -/
  | misuse (reason : Bytes)

mutual

/-- The answer to a step. -/
inductive Answer where
  | step (outcome : Outcome) (shape : Option Reply) (trace : List Trace)

/-- Something that happened to a host value. -/
inductive Trace where
  | event (text : Bytes)
  | nested (answer : Answer)

end

/-! ## Host values -/

/-- A host value. -/
inductive HostObject where
  | plain (name : Bytes)
  | symbol (name : Bytes)
  | colliding (id : Int) (hash : UInt32)
  | faulty (name : Bytes) (code : Int) (text : Bytes) (hash : Option UInt32)
  | box (name : Bytes) (content : Value) (hash : Option UInt32)
  | hook (name : Bytes) (hash : UInt32) (verdict : Option Bool)
      (onHash onEqual onFreeze : List Step)

namespace HostObject

instance : Inhabited HostObject := ⟨.plain []⟩

def name : HostObject → Bytes
  | .plain name | .symbol name | .faulty name .. | .box name .. | .hook name .. => name
  | .colliding id _ => ascii "c" ++ Bytes.decimal id

def typeName : HostObject → Bytes
  | .plain _ => ascii "plain"
  | .symbol _ => ascii "symbol"
  | .colliding .. => ascii "col"
  | .faulty .. => ascii "faulty"
  | .box .. => ascii "box"
  | .hook .. => ascii "hook"

end HostObject

/-! ## Registers -/

/-- A table of either kind. -/
structure AnyTable where
  kind : KeyKind
  table : TableId kind

/-- A cursor on a table of either kind. -/
structure AnyCursor where
  kind : KeyKind
  cursor : Cursor kind

/-- A memory block held by the script, and its size. -/
structure RawBlock where
  block : Option Block
  bytes : Nat

/-- Named registers of one sort. -/
abbrev Registers (α : Type) := List (Name × α)

namespace Registers

variable {α : Type}

def get? (r : Registers α) (name : Name) : Option α := r.lookup name

def set (r : Registers α) (name : Name) (x : α) : Registers α :=
  (name, x) :: r.filter (·.1 != name)

def drop (r : Registers α) (name : Name) : Registers α := r.filter (·.1 != name)

end Registers

/-- The host's part of the world. -/
structure Session where
  values : Registers Value
  tables : Registers AnyTable
  views : Registers ViewId
  cursors : Registers AnyCursor
  blocks : Registers RawBlock
  hosts : Array HostObject
  /-- Hooks whose steps are running. -/
  running : List HostId
  /-- What has happened to host values during the step, the latest first. -/
  trace : List Trace

namespace Session

def empty : Session := ⟨[], [], [], [], [], #[], [], []⟩

def host (s : Session) (h : HostId) : HostObject := s.hosts.getD h.index default

end Session

/-- A computation of a script. -/
abbrev Act := Run Session

/-! ## Working on the session -/

def session : Act Session := return (← get).env

def updateSession (f : Session → Session) : Act Unit := modify fun w => { w with env := f w.env }

/-- Notes something in the trace. -/
def note (t : Trace) : Act Unit := updateSession fun s => { s with trace := t :: s.trace }

/-- Runs `act` with every allocation refused, or none of them on that account. -/
def refusing {α : Type} (refuse : Bool) (act : Act α) : Act α := do
  let before := (← get).memory.refusing
  let switch (on : Bool) (w : World Session) : World Session :=
    { w with memory := { w.memory with refusing := on } }
  modify (switch refuse)
  afterwards act (switch before)

/-- A table by name: a table register, or a value register that holds a dict. -/
def Session.table? (s : Session) (name : Name) : Option AnyTable :=
  match s.tables.get? name with
  | some t => some t
  | none =>
    match s.values.get? name with
    | some (.dict t) => some ⟨.any, t⟩
    | _ => none

end ValueCore.Script
