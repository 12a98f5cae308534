import ValueCore.Fault
import ValueCore.Table.Update
import ValueCore.View.Basic

/-!
# The world and its computations

A `World` is everything that one embedding of the value core owns: its tables, structs and views,
the ledger of its memory, the message of its last error, and whatever state the host keeps beside
them (`ε`).

A `Run` is a computation on a world that may fail. What it did to the world before it failed stays
done. Two kinds of failure are errors: one that was raised, which has a status and has left its
message in the world, and a failed allocation of the host itself, which has left no message yet. The
others are not caught by anything: a computation that used up the nesting it was allowed, and a
request that makes no sense.

* `raise` reports a fault; `protect` catches errors and settles the message.
* `afterwards` runs a clean-up on every way out.
* `allocate`, `reallocate` and `release` go to the allocator; `withScratch` borrows a block, and
  `onTrail` one that may get larger on the way.
* `holding` keeps the contents of a table in place while something walks over them.
-/

namespace ValueCore

/-- A struct: the value that brands it, and its fields. -/
structure StructObject where
  ctor : Value
  fields : TableId .text

instance : Inhabited StructObject := ⟨⟨.none, ⟨0⟩⟩⟩

/-- The array of the containers that a value is inside of while it is being written. -/
structure Trail where
  block : Option Block := none
  /-- How many containers it has room for. -/
  capacity : Nat := 0

/-- Everything that one embedding owns. -/
structure World (ε : Type) where
  memory : Memory
  /-- The block that the world itself is in. -/
  own : Block
  /-- Message of the last error, empty after a success. -/
  message : Bytes
  anyTables : Array (Table Value)
  textTables : Array (Table Bytes)
  structs : Array StructObject
  views : Array View
  /-- Blocks that hold strings, dicts, structs and host values, with their sizes. -/
  objects : List (Block × Nat)
  /-- The trail of the value that is being written, while one is. -/
  trail : Option Trail
  /-- State kept by the host. -/
  env : ε

namespace World

variable {ε : Type}

def table (w : World ε) : {kind : KeyKind} → TableId kind → Table kind.Key
  | .any, t => w.anyTables.getD t.index default
  | .text, t => w.textTables.getD t.index default

def modifyTable (w : World ε) :
    {kind : KeyKind} → TableId kind → (Table kind.Key → Table kind.Key) → World ε
  | .any, t, f => { w with anyTables := w.anyTables.modify t.index f }
  | .text, t, f => { w with textTables := w.textTables.modify t.index f }

/-- Adds a table and names it. -/
def addTable (w : World ε) : (kind : KeyKind) → Table kind.Key → TableId kind × World ε
  | .any, t => (⟨w.anyTables.size⟩, { w with anyTables := w.anyTables.push t })
  | .text, t => (⟨w.textTables.size⟩, { w with textTables := w.textTables.push t })

def struct (w : World ε) (s : StructId) : StructObject := w.structs.getD s.index default

def view (w : World ε) (v : ViewId) : View := w.views.getD v.index default

def modifyView (w : World ε) (v : ViewId) (f : View → View) : World ε :=
  { w with views := w.views.modify v.index f }

/-- How many dicts and structs there are, or could be: an upper bound for the length of any path
that meets no container twice. -/
def containers (w : World ε) : Nat := w.anyTables.size + w.structs.size

end World

/-! ## Computations -/

/-- Why a computation did not finish. -/
inductive Failure where
  /-- An error was raised; its message is in the world. -/
  | raised (status : Status)
  /-- The host ran out of memory of its own. -/
  | hostMemory
  /-- Nesting went deeper than was allowed for. -/
  | exhausted
  /-- The request names something that is not there, or is not of the sort that is needed. -/
  | misuse (reason : Bytes)
  deriving DecidableEq

/-- A computation on a world that may fail. -/
abbrev Run (ε : Type) := ExceptT Failure (StateM (World ε))

variable {ε α : Type}

/-- Reports a fault: its message replaces the current one. -/
def raise (f : Fault) : Run ε α := do
  modify fun w => { w with message := f.message }
  throw (.raised f.status)

/-- Runs `act` and then, whether it returned or failed, `cleanUp`. -/
def afterwards (act : Run ε α) (cleanUp : World ε → World ε) : Run ε α := fun w =>
  let (outcome, w) := act w
  (outcome, cleanUp w)

/-- Runs `act` and answers with the status of the error that ended it, if one did. The message of
that error stays; a success clears the message. -/
def protect (act : Run ε α) : Run ε (Except Status α) := fun w =>
  match act w with
  | (.ok a, w) => (.ok (.ok a), { w with message := [] })
  | (.error (.raised status), w) => (.ok (.error status), w)
  | (.error .hostMemory, w) =>
    (.ok (.error .memory), { w with message := Fault.outOfMemory.message })
  | (.error .exhausted, w) => (.error .exhausted, w)
  | (.error (.misuse reason), w) => (.error (.misuse reason), w)

/-- Replaces the message of the last error. -/
def setMessage (text : Bytes) : Run ε Unit :=
  modify fun w => { w with message := clip text.untilNul }

/-! ## Memory -/

/-- Gives back a block, if there is one. -/
def World.freed (w : World ε) (b : Option Block) (bytes : Nat) : World ε :=
  { w with memory := w.memory.releaseOption b bytes }

/-- Asks for a block; no block is needed for no bytes. -/
def allocate (bytes : Nat) : Run ε (Option Block) := do
  if bytes = 0 then return none
  let granted ← modifyGet fun w =>
    let (granted, memory) := w.memory.request bytes
    (granted, { w with memory })
  match granted with
  | some b => return some b
  | none => raise .outOfMemory

/-- Gives back a block, if there is one. -/
def release (b : Option Block) (bytes : Nat) : Run ε Unit := modify (·.freed b bytes)

/-- Gives a block another size, where no block counts as one of no bytes. Answers `none` if the
allocator refuses, and then nothing has changed. -/
def tryReallocate (b : Option Block) (old new : Nat) : Run ε (Option (Option Block)) := do
  if new = 0 then
    release b old
    return some none
  match b with
  | none =>
    let granted ← modifyGet fun w =>
      let (granted, memory) := w.memory.request new
      (granted, { w with memory })
    return granted.map some
  | some block =>
    let granted ← modifyGet fun w =>
      let (granted, memory) := w.memory.resize block old new
      (granted, { w with memory })
    return if granted then some (some block) else none

/-- Gives a block another size, or reports that there is no memory. -/
def reallocate (b : Option Block) (old new : Nat) : Run ε (Option Block) := do
  match ← tryReallocate b old new with
  | some b => return b
  | none => raise .outOfMemory

/-- Asks for an array, refusing sizes that no machine word holds. -/
def allocateArray (count size : Nat) : Run ε (Option Block) := do
  if Memory.tooBig count size then raise .blockTooBig
  allocate (Memory.arrayBytes count size)

/-- Gives an array another number of elements. -/
def reallocateArray (b : Option Block) (old new size : Nat) : Run ε (Option Block) := do
  if Memory.tooBig new size then raise .blockTooBig
  reallocate b (Memory.arrayBytes old size) (Memory.arrayBytes new size)

/-- Asks for a temporary array. Here the bound on its size is exact. -/
def allocateElements (count size : Nat) : Run ε (Option Block) := do
  if (Memory.wordSpan - 1) / size < count then raise .blockTooBig
  allocate (count * size)

/-- Runs `act` while a temporary array is held; none is needed for no elements. -/
def withScratch (count size : Nat) (act : Run ε α) : Run ε α := do
  let b ← allocateElements count size
  afterwards act (·.freed b (count * size))

/-- Size of a container on a trail. -/
def trailEntryBytes : Nat := 8

/-- Starts a trail, which has no room yet. -/
def World.newTrail (w : World ε) : World ε := { w with trail := some {} }

/-- Gives back the trail there is and returns to the one before it. -/
def World.offTrail (w : World ε) (outer : Option Trail) : World ε :=
  match w.trail with
  | some t => { w.freed t.block (t.capacity * trailEntryBytes) with trail := outer }
  | none => { w with trail := outer }

/-- Runs `act` on a trail of its own. -/
def onTrail (act : Run ε α) : Run ε α := do
  let outer := (← get).trail
  modify (·.newTrail)
  afterwards act (·.offTrail outer)

/-- Makes room for one more container on a trail of `length` containers. It is replaced by one of
twice the size when it is full, and never becomes shorter. -/
def extendTrail (length : Nat) : Run ε Unit := do
  match (← get).trail with
  | none => pure ()
  | some t =>
    if length = t.capacity then
      let capacity := length + max length 1
      let block ← allocate (capacity * trailEntryBytes)
      release t.block (t.capacity * trailEntryBytes)
      modify fun w => { w with trail := some { block, capacity } }

/-- Runs `make`, whose result is to live in `block`: the block joins the objects of the world, or is
given back if making fails. -/
def madeIn (block : Option Block) (bytes : Nat) (make : Run ε α) : Run ε α := fun w =>
  match make w with
  | (.ok a, w) => (.ok a, { w with objects := (block.map (·, bytes)).toList ++ w.objects })
  | (.error e, w) => (.error e, w.freed block bytes)

/-- Makes an object in a block of its own. -/
def newObject (bytes : Nat) (make : Run ε α) : Run ε α := do
  madeIn (← allocate bytes) bytes make

/-- Size of the header of a string; its bytes and a closing NUL follow. -/
def stringHeaderBytes : Nat := 32

/-- Takes memory for a string and answers with its value. -/
def newString (s : Bytes) : Run ε Value :=
  newObject (stringHeaderBytes + s.length + 1) (pure (.str s))

/-! ## Opening and closing -/

/-- Size of what a world needs for itself. -/
def stateBytes : Nat := 600

/-- The text that names the default constructor. -/
def constructorText : Bytes := ascii "struct"

/-- A world of its own on an allocator. It takes a block for itself, which is left out of the total,
and the name of the default constructor; there is no world if either is refused. -/
def World.open? (grants : Nat → Nat → Bool) (env : ε) : Option (World ε) :=
  match (Memory.new grants).request stateBytes with
  | (none, _) => none
  | (some own, memory) =>
    let bare : World ε :=
      { memory := { memory with total := 0 }, own, message := [], anyTables := #[],
        textTables := #[], structs := #[], views := #[], objects := [], trail := none, env }
    match protect (newString constructorText) bare with
    | (.ok (.ok _), w) => some w
    | _ => none

/-! ## Tables -/

variable {kind : KeyKind}

def readTable (t : TableId kind) : Run ε (Table kind.Key) := return (← get).table t

def updateTable (t : TableId kind) (f : Table kind.Key → Table kind.Key) : Run ε Unit :=
  modify (·.modifyTable t f)

/-- Counts one more that needs the contents of the table to stay. -/
def World.held (w : World ε) (t : TableId kind) : World ε :=
  w.modifyTable t fun t => { t with holds := t.holds + 1 }

/-- Counts one fewer. -/
def World.letGo (w : World ε) (t : TableId kind) : World ε :=
  w.modifyTable t fun t => { t with holds := t.holds - 1 }

/-- Runs `act` with the contents of a table held in place. A table that is frozen at the start is
not touched: it cannot change, and is not counted. -/
def holding (t : TableId kind) (act : Run ε α) : Run ε α := do
  if (← readTable t).frozen then act
  else
    modify (·.held t)
    afterwards act (·.letGo t)

end ValueCore
