import ValueCore.Script.Build

/-!
# Calls on memory

Blocks that a script asks for itself, and a vector that lives for one call. The answer tells whether
there is no block now, and by how much the total of live bytes has changed.
-/

namespace ValueCore.Script

/-- Runs `act` and answers with its result and the change of the total. -/
def measured {α : Type} (act : Act α) : Act (α × Int) := do
  let before := (← get).memory.total
  let result ← act
  return (result, (← get).memory.total - before)

/-- No block, and the change of the total. -/
def blockReply (b : Option Block) (change : Int) : Reply :=
  .list [.bool b.isNone, .int change]

def keepBlock (name : Name) (b : Option Block) (bytes : Nat) : Act Unit :=
  updateSession fun s => { s with blocks := s.blocks.set name ⟨b, bytes⟩ }

def blockNamed (name : Name) : Act RawBlock := do
  match (← session).blocks.get? name with
  | some b => return b
  | none => throw (.misuse (ascii "no such block"))

/-- Asks for an array, measures, and gives it back. -/
def probe (bytes : Nat) (ask : Act (Option Block)) : Act Reply := do
  let (b, change) ← measured ask
  release b bytes
  return blockReply b change

/-! ## Vectors -/

/-- A growing array of 64-bit integers. -/
structure Vector where
  items : Array Int
  capacity : Nat
  block : Option Block

/-- Size of an element. -/
def elementBytes : Nat := 8

/-- The most elements a vector can be asked to hold. -/
def vectorLimit : Nat := 2 ^ 60 - 1

/-- Moves a vector to a block for `capacity` elements. If there is none it is given back. -/
def Vector.moved (v : Vector) (capacity : Nat) : Act Vector := fun w =>
  match allocateElements capacity elementBytes w with
  | (.ok block, w) =>
    (.ok ⟨v.items, capacity, block⟩, w.freed v.block (v.capacity * elementBytes))
  | (.error e, w) => (.error e, w.freed v.block (v.capacity * elementBytes))

/-- Gives a vector room for `count` more elements. It grows to at least twice its length. -/
def Vector.withRoom (v : Vector) (count : Nat) : Act Vector :=
  if v.items.size + count ≤ v.capacity then pure v
  else v.moved (min (v.items.size + max v.items.size count) vectorLimit)

/-- Refuses a length beyond the limit. -/
def checkLength (v : Vector) (count : Nat) : Act Unit :=
  if count ≤ vectorLimit then pure ()
  else do
    release v.block (v.capacity * elementBytes)
    throw (.misuse (ascii "vector too long"))

def Vector.apply (v : Vector) : VectorOp → Act Vector
  | .push x => do
    let v ← v.withRoom 1
    return { v with items := v.items.push x }
  | .pop => pure { v with items := v.items.pop }
  | .resize count => do
    checkLength v count
    if count ≤ v.items.size then return { v with items := v.items.extract 0 count }
    let v ← v.withRoom (count - v.items.size)
    return { v with items := v.items ++ Array.replicate (count - v.items.size) 0 }
  | .reserve count => do
    checkLength v count
    if count ≤ v.capacity then return v else v.moved count
  | .clear => pure { v with items := #[] }
  | .set index x => pure { v with items := v.items.setIfInBounds index x }

/-- Size, emptiness, and the ends if there are any. -/
def Vector.summary (v : Vector) : Reply :=
  .list ([.nat v.items.size, .bool v.items.isEmpty] ++
    (v.items[0]?).toList.map .int ++ (v.items.back?).toList.map .int)

/-- Applies operations in order and answers with a summary after each and the final contents. The
vector is given back in the end. -/
def runVector (v : Vector) (summaries : List Reply) : List VectorOp → Act Reply
  | [] => do
    release v.block (v.capacity * elementBytes)
    return .list [.list summaries.reverse, .list (v.items.toList.map .int)]
  | op :: rest => do
    let v ← v.apply op
    runVector v (v.summary :: summaries) rest

/-! ## Calls -/

def runMemoryCall (refuse : Bool) : MemoryCall → Act Reply
  | .new target bytes => do
    let (b, change) ← measured (refusing refuse (allocate bytes))
    keepBlock target b bytes
    return blockReply b change
  | .resize name bytes => do
    let raw ← blockNamed name
    let (b, change) ← measured (refusing refuse (reallocate raw.block raw.bytes bytes))
    keepBlock name b bytes
    return blockReply b change
  | .tryResize name bytes => do
    let raw ← blockNamed name
    match ← measured (refusing refuse (tryReallocate raw.block raw.bytes bytes)) with
    | (some b, change) =>
      keepBlock name b bytes
      return blockReply b change
    | (none, change) => return blockReply none change
  | .free name => do
    let raw ← blockNamed name
    let ((), change) ← measured (release raw.block raw.bytes)
    keepBlock name none 0
    return blockReply none change
  | .resizeVector name count => do
    let raw ← blockNamed name
    let (b, change) ← measured <| refusing refuse <|
      reallocateArray raw.block (raw.bytes / elementBytes) count elementBytes
    keepBlock name b (Memory.arrayBytes count elementBytes)
    return blockReply b change
  | .checkedVector size count =>
    probe (Memory.arrayBytes count size) (refusing refuse (allocateArray count size))
  | .elements size count =>
    probe (count * size) (refusing refuse (allocateElements count size))
  | .tooBig => raise .blockTooBig
  | .fail => raise .outOfMemory
  | .vector ops => refusing refuse (runVector ⟨#[], 0, none⟩ [] ops)

end ValueCore.Script
