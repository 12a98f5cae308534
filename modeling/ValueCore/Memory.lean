/-!
# Memory

All memory is asked for from an allocator that the embedding supplies and that may refuse any
request. `Memory` is the ledger of one such allocator: how it answers, which blocks are live and how
many bytes they hold together.

The allocator is a function of the serial number of the request and of its size, so every pattern of
refusals is one. `refusing` switches it off for a while. A refused request changes nothing but the
serial number; handing back a block that is not live, or at another size than it has, counts as a
`stray`.
-/

-- powers of numbers are those of the core library, also where a power of monoids is in scope
attribute [instance (high + 1), default_instance (high + 1)] instPowNat

namespace ValueCore

/-- A block handed out by the allocator. Blocks are numbered in the order they were granted and a
number is never used twice. -/
abbrev Block := Nat

/-- The ledger of an allocator. -/
structure Memory where
  /-- Does the allocator grant its `serial`-th request, for a block of `bytes` bytes? -/
  grants : (serial bytes : Nat) → Bool
  /-- Set while every request is to be refused. -/
  refusing : Bool
  /-- Requests made so far. -/
  requests : Nat
  /-- Bytes in live blocks, as the running total has it. -/
  total : Int
  /-- Size of each block granted so far, `none` once it has been given back. -/
  blocks : Array (Option Nat)
  /-- How often a block was given back that was not live at that size. -/
  strays : Nat

namespace Memory

/-- A ledger with nothing granted yet. -/
def new (grants : Nat → Nat → Bool) : Memory := ⟨grants, false, 0, 0, #[], 0⟩

/-- Size of a live block. -/
def sizeOf? (m : Memory) (b : Block) : Option Nat := m.blocks[b]?.join

/-- The answer to the next request. -/
def answer (m : Memory) (bytes : Nat) : Bool := !m.refusing && m.grants m.requests bytes

/-- Asks for a new block of `bytes` bytes. -/
def request (m : Memory) (bytes : Nat) : Option Block × Memory :=
  let counted := { m with requests := m.requests + 1 }
  if m.answer bytes then
    (some m.blocks.size,
      { counted with total := m.total + bytes, blocks := m.blocks.push (some bytes) })
  else (none, counted)

/-- Asks for a live block to be given another size, other than zero. -/
def resize (m : Memory) (b : Block) (old new : Nat) : Bool × Memory :=
  let counted := { m with requests := m.requests + 1 }
  if m.answer new then
    let strays := if m.sizeOf? b = some old then m.strays else m.strays + 1
    (true, { counted with
      total := m.total + new - old, blocks := m.blocks.setIfInBounds b (some new), strays })
  else (false, counted)

/-- Gives a block back. -/
def release (m : Memory) (b : Block) (bytes : Nat) : Memory :=
  let strays := if m.sizeOf? b = some bytes then m.strays else m.strays + 1
  { m with total := m.total - bytes, blocks := m.blocks.setIfInBounds b none, strays }

/-- Gives back a block, if there is one. -/
def releaseOption (m : Memory) (b : Option Block) (bytes : Nat) : Memory :=
  match b with
  | some b => m.release b bytes
  | none => m

/-! ## Checked sizes -/

/-- Number of values of a machine word. -/
def wordSpan : Nat := 2 ^ 64

/-- Would `count` elements of `size` bytes, and one more, overflow a machine word? The sum
`count + 1` is itself computed in a word. -/
def tooBig (count size : Nat) : Bool := (wordSpan - 1) / size < (count + 1) % wordSpan

/-- Bytes in `count` elements of `size` bytes, computed in a machine word. -/
def arrayBytes (count size : Nat) : Nat := count * size % wordSpan

end Memory

end ValueCore
